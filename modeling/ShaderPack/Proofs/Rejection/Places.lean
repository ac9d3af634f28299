import Mathlib.Algebra.Order.Ring.Nat
import ShaderPack.Proofs.Recovery.ArraySize
import ShaderPack.Rejection.Basic

namespace ShaderPack.Rejection

open Text
open Recovery (Numeral parse?_eq_some exists_of_parse?_trim)

/-!
# Rejections — the place that a log names

A log names a place in one of two forms (`NamesInSource`, `NamesAsPair`), each of which is a matter
of where certain characters stand for the first time and of numbers between them.  `place` finds a
place exactly where one of the forms is there:

* `Numeric` — a number with white space around it, `number?_eq_some`;
* `sourcePlace?_eq_some`, `pairPlace?_eq_some` — one lemma for each form;
* `NamesInSource.not_namesAsPair` — no log has both, since the one begins with a number and the
  other one with a parenthesis;
* `ofLog_exact` — what a rejection keeps of a log, and the place that a printed log gives back.
-/

variable {log s : List Char} {value line column line' column' : Nat}

/-! ### Numbers -/

/-- Without the white space around it, the text is an optional `+` and one or more digits, and the
    value of these is below `2 ^ 32`. -/
def Numeric (s : List Char) (value : Nat) : Prop :=
  ∃ n : Numeral, trim s = n.text ∧ n.value = value ∧ value ≤ 2 ^ 32 - 1

theorem number?_eq_some : number? s = some value ↔ Numeric s value := parse?_eq_some

theorem Numeric.lt (h : Numeric s value) : value < 2 ^ 32 := by
  obtain ⟨-, -, -, hlimit⟩ := h
  omega

/-- The digits of a number stand for it. -/
theorem numeric_toString (n : UInt32) : Numeric (toString n.toNat).toList n.toNat := by
  have hdigits : (toString n.toNat).toList = Nat.toDigits 10 n.toNat := Nat.toList_repr
  have hdigit : ∀ c ∈ Nat.toDigits 10 n.toNat, c.isDigit = true := fun c hc =>
    Nat.isDigit_of_mem_toDigits (by decide) (by decide) hc
  let number : Numeral :=
    ⟨false, Nat.toDigits 10 n.toNat, List.all_eq_true.mpr hdigit, Nat.toDigits_ne_nil⟩
  refine ⟨number, ?_, Nat.ofDigitChars_ten_toDigits, Nat.le_pred_of_lt n.toNat_lt⟩
  have htrim : trim ([] ++ number.text ++ []) = number.text :=
    number.trim_append (by simp) (by simp)
  rw [List.nil_append, List.append_nil] at htrim
  rwa [hdigits]

/-- A character that belongs to no number is not among the digits of one. -/
theorem notMem_toString {x : Char} (hx : x.isDigit = false) (n : Nat) :
    x ∉ (toString n).toList := by
  intro hmem
  have hdigits : (toString n).toList = Nat.toDigits 10 n := Nat.toList_repr
  rw [hdigits] at hmem
  have hdigit : x.isDigit = true := Nat.isDigit_of_mem_toDigits (by decide) (by decide) hmem
  simp [hx] at hdigit

/-! ### The two forms -/

/-- The log begins like `0:12(4)`. -/
def NamesInSource (log : List Char) (line column : Nat) : Prop :=
  ∃ a b d rest, log = a ++ ':' :: (b ++ '(' :: (d ++ ')' :: rest)) ∧
    ':' ∉ a ∧ '(' ∉ b ∧ ')' ∉ d ∧ (∃ source, Numeric a source) ∧
      Numeric b line ∧ Numeric d column

/-- The log begins like `(12,4)`, perhaps behind white space. -/
def NamesAsPair (log : List Char) (line column : Nat) : Prop :=
  ∃ blanks b d rest, log = blanks ++ '(' :: (b ++ ',' :: (d ++ ')' :: rest)) ∧
    (∀ c ∈ blanks, isBlank c = true) ∧ ',' ∉ b ∧ ')' ∉ d ∧ Numeric b line ∧ Numeric d column

theorem sourcePlace?_eq_some :
    sourcePlace? log = some (line, column) ↔ NamesInSource log line column := by
  simp only [sourcePlace?, Option.bind_eq_bind, Option.bind_eq_some_iff, Prod.exists,
    cutAt?_eq_some, number?_eq_some, Option.pure_def, Option.some.injEq, Prod.mk.injEq]
  constructor
  · rintro ⟨a, _, ⟨rfl, ha⟩, source, hsource, b, _, ⟨rfl, hb⟩, d, rest, ⟨rfl, hd⟩, _, hline, _,
      hcolumn, rfl, rfl⟩
    exact ⟨a, b, d, rest, rfl, ha, hb, hd, ⟨source, hsource⟩, hline, hcolumn⟩
  · rintro ⟨a, b, d, rest, rfl, ha, hb, hd, ⟨source, hsource⟩, hline, hcolumn⟩
    exact ⟨a, _, ⟨rfl, ha⟩, source, hsource, b, _, ⟨rfl, hb⟩, d, rest, ⟨rfl, hd⟩, line, hline,
      column, hcolumn, rfl, rfl⟩

theorem pairPlace?_eq_some :
    pairPlace? log = some (line, column) ↔ NamesAsPair log line column := by
  unfold pairPlace?
  constructor
  · intro h
    split at h
    · next rest hrest =>
      obtain ⟨blanks, hblanks, rfl⟩ := (trimStart_eq_cons (by decide)).mp hrest
      simp only [Option.bind_eq_bind, Option.bind_eq_some_iff, Prod.exists, cutAt?_eq_some,
        number?_eq_some, Option.pure_def, Option.some.injEq, Prod.mk.injEq] at h
      obtain ⟨b, _, ⟨rfl, hb⟩, d, rest, ⟨rfl, hd⟩, _, hline, _, hcolumn, rfl, rfl⟩ := h
      exact ⟨blanks, b, d, rest, rfl, hblanks, hb, hd, hline, hcolumn⟩
    · cases h
  · rintro ⟨blanks, b, d, rest, rfl, hblanks, hb, hd, hline, hcolumn⟩
    rw [(trimStart_eq_cons (by decide)).mpr ⟨blanks, hblanks, rfl⟩]
    simp only [Option.bind_eq_bind, Option.bind_eq_some_iff, Prod.exists, cutAt?_eq_some,
      number?_eq_some, Option.pure_def, Option.some.injEq, Prod.mk.injEq]
    exact ⟨b, _, ⟨rfl, hb⟩, d, rest, ⟨rfl, hd⟩, line, hline, column, hcolumn, rfl, rfl⟩

/-- **No log has both forms**: behind its white space the one begins with a number. -/
theorem NamesInSource.not_namesAsPair (h : NamesInSource log line column) :
    ¬NamesAsPair log line' column' := by
  rintro ⟨blanks, b', d', rest', hpair, hblanks, -⟩
  obtain ⟨a, b, d, rest, hsource, -, -, -, ⟨source, number, htrim, -⟩, -⟩ := h
  obtain ⟨before, after, hbefore, -, ha⟩ := exists_trim a
  rw [htrim] at ha
  have hfirst := (trimStart_eq_cons (by decide)).mpr ⟨blanks, hblanks, hpair⟩
  -- the first character of the number is the parenthesis
  obtain ⟨c, digits, hdigits⟩ := List.exists_cons_of_ne_nil number.text_ne_nil
  have hc : c = '+' ∨ c.isDigit = true := number.mem_text (hdigits ▸ List.mem_cons_self)
  have hblank : isBlank c = false := by
    rcases hc with rfl | hdigit
    · decide
    · exact isBlank_of_isWord (isWord_of_isDigit hdigit)
  have hnumber : trimStart log =
      c :: (digits ++ (after ++ ':' :: (b ++ '(' :: (d ++ ')' :: rest)))) :=
    (trimStart_eq_cons hblank).mpr ⟨before, hbefore, by simp [hsource, ha, hdigits]⟩
  obtain rfl : '(' = c := (List.cons.inj (hfirst.symm.trans hnumber)).1
  revert hc
  decide

/-! ### The place of a log -/

theorem place_of_namesInSource (h : NamesInSource log line column) :
    place log = (line, column) := by
  rw [place, sourcePlace?_eq_some.mpr h, Option.some_or, Option.getD_some]

theorem place_of_namesAsPair (h : NamesAsPair log line column) : place log = (line, column) := by
  have hsource : sourcePlace? log = none := by
    cases hplace : sourcePlace? log with
    | none => rfl
    | some found => exact absurd h (sourcePlace?_eq_some.mp hplace).not_namesAsPair
  rw [place, hsource, pairPlace?_eq_some.mpr h, Option.none_or, Option.getD_some]

-- white space around a number and a sign in front of it are allowed
example : place " ( +12 , 4 ): unknown name".toList = (12, 4) := by decide

theorem place_of_not_names
    (h : ∀ line column, ¬NamesInSource log line column ∧ ¬NamesAsPair log line column) :
    place log = (0, 0) := by
  have hsource : sourcePlace? log = none := Option.eq_none_iff_forall_ne_some.mpr
    fun found hfound => (h found.1 found.2).1 (sourcePlace?_eq_some.mp hfound)
  have hpair : pairPlace? log = none := Option.eq_none_iff_forall_ne_some.mpr
    fun found hfound => (h found.1 found.2).2 (pairPlace?_eq_some.mp hfound)
  rw [place, hsource, hpair, Option.none_or, Option.getD_none]

theorem NamesInSource.lt (h : NamesInSource log line column) : line < 2 ^ 32 ∧ column < 2 ^ 32 := by
  obtain ⟨_, _, _, _, -, -, -, -, -, hline, hcolumn⟩ := h
  exact ⟨hline.lt, hcolumn.lt⟩

theorem NamesAsPair.lt (h : NamesAsPair log line column) : line < 2 ^ 32 ∧ column < 2 ^ 32 := by
  obtain ⟨_, _, _, _, -, -, -, -, hline, hcolumn⟩ := h
  exact ⟨hline.lt, hcolumn.lt⟩

/-- Lines and columns are kept as they are, since a number in a log is below `2 ^ 32`. -/
theorem ofLog_place {log : String} (h : place log.toList = (line, column))
    (hlt : line < 2 ^ 32 ∧ column < 2 ^ 32) :
    (ofLog log).line.toNat = line ∧ (ofLog log).column.toNat = column := by
  simp only [ofLog, h, UInt32.toNat_ofNat']
  exact ⟨Nat.mod_eq_of_lt hlt.1, Nat.mod_eq_of_lt hlt.2⟩

theorem ofLog_line_column {log : String} {line column : UInt32}
    (h : place log.toList = (line.toNat, column.toNat)) :
    (ofLog log).line = line ∧ (ofLog log).column = column := by
  have hplace := ofLog_place h ⟨line.toNat_lt, column.toNat_lt⟩
  exact hplace.imp UInt32.toNat_inj.mp UInt32.toNat_inj.mp

/-- What a rejection keeps of a log is the log without the white space behind it. -/
theorem ofLog_log (log : String) :
    (∃ behind, (∀ c ∈ behind, isBlank c = true) ∧
      log.toList = (ofLog log).log.toList ++ behind) ∧
    ∀ c, (ofLog log).log.toList.getLast? = some c → isBlank c = false := by
  have hkept : (ofLog log).log.toList = trimEnd log.toList := String.toList_ofList
  rw [hkept]
  exact ⟨exists_trimEnd log.toList, fun _ => isBlank_getLast_trimEnd⟩

/-! ### Printed logs -/

/-- A log that names a place in a source, such as `0:12(4): unknown name`. -/
def sourceLog (source line column : UInt32) (cause : String) : String :=
  toString source.toNat ++ ":" ++ toString line.toNat ++ "(" ++ toString column.toNat ++ "):" ++
    cause

/-- A log that names a place alone, such as `(12,4): unknown name`. -/
def pairLog (line column : UInt32) (cause : String) : String :=
  "(" ++ toString line.toNat ++ "," ++ toString column.toNat ++ "):" ++ cause

theorem namesInSource_sourceLog (source line column : UInt32) (cause : String) :
    NamesInSource (sourceLog source line column cause).toList line.toNat column.toNat := by
  refine ⟨(toString source.toNat).toList, (toString line.toNat).toList,
    (toString column.toNat).toList, ':' :: cause.toList, ?_, notMem_toString (by decide) _,
    notMem_toString (by decide) _, notMem_toString (by decide) _,
    ⟨source.toNat, numeric_toString source⟩, numeric_toString line, numeric_toString column⟩
  simp [sourceLog]

theorem namesAsPair_pairLog (line column : UInt32) (cause : String) :
    NamesAsPair (pairLog line column cause).toList line.toNat column.toNat := by
  refine ⟨[], (toString line.toNat).toList, (toString column.toNat).toList, ':' :: cause.toList,
    ?_, by simp, notMem_toString (by decide) _, notMem_toString (by decide) _,
    numeric_toString line, numeric_toString column⟩
  simp [pairLog]

/-- **The place of a log is read exactly.**  A rejection tells the line and the column of a log that
    has one of the two forms, and zeros for every other log; no log has both forms, and of each log
    only the white space behind it is lost.  A log that is printed with a place gives it back. -/
theorem ofLog_exact :
    (∀ (log : String) (line column : Nat),
      NamesInSource log.toList line column ∨ NamesAsPair log.toList line column →
        (ofLog log).line.toNat = line ∧ (ofLog log).column.toNat = column) ∧
    (∀ log : String,
      (∀ line column, ¬NamesInSource log.toList line column ∧ ¬NamesAsPair log.toList line column) →
        (ofLog log).line = 0 ∧ (ofLog log).column = 0) ∧
    (∀ (log : List Char) (line column line' column' : Nat),
      ¬(NamesInSource log line column ∧ NamesAsPair log line' column')) ∧
    (∀ log : String,
      (∃ behind, (∀ c ∈ behind, isBlank c = true) ∧
        log.toList = (ofLog log).log.toList ++ behind) ∧
      ∀ c, (ofLog log).log.toList.getLast? = some c → isBlank c = false) ∧
    ∀ (source line column : UInt32) (cause : String),
      ((ofLog (sourceLog source line column cause)).line = line ∧
        (ofLog (sourceLog source line column cause)).column = column) ∧
      (ofLog (pairLog line column cause)).line = line ∧
        (ofLog (pairLog line column cause)).column = column := by
  refine ⟨fun log line column h => ?named, fun log h => ?unnamed, fun log _ _ _ _ h => ?both,
    ofLog_log, fun source line column cause => ⟨?inSource, ?asPair⟩⟩
  case named =>
    rcases h with h | h
    · exact ofLog_place (place_of_namesInSource h) h.lt
    · exact ofLog_place (place_of_namesAsPair h) h.lt
  case unnamed => exact ofLog_line_column (place_of_not_names h)
  case both => exact h.1.not_namesAsPair h.2
  case inSource =>
    have hnames := namesInSource_sourceLog source line column cause
    exact ofLog_line_column (place_of_namesInSource hnames)
  case asPair =>
    have hnames := namesAsPair_pairLog line column cause
    exact ofLog_line_column (place_of_namesAsPair hnames)

end ShaderPack.Rejection
