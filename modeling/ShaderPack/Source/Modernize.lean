import ShaderPack.Dialect
import ShaderPack.Stage
import ShaderPack.Text.Replace

namespace ShaderPack.Source

/-!
# Bringing optimized text up to date

Optimized text of the GL family may still use functions under the names of their
extensions; `renameLegacy` gives them their later names.  Vertex shaders get full precision
throughout, which `raisePrecision` does.  Each is a sequence of passes over the whole text,
one for each word, and a pass sees what the passes before it have made.
-/

/-- Names of extension functions and their later names, in the order of the passes. -/
def legacyNames : List (String × String) :=
  [("gl_FragDepthEXT", "gl_FragDepth"),
   ("textureLodEXT", "texture2DLod"),
   ("textureGradEXT", "texture2DGrad"),
   ("texture2DLodARB", "texture2DLod"),
   ("texture2DLodEXT", "texture2DLod"),
   ("texture2DGradARB", "texture2DGrad"),
   ("texture2DGradEXT", "texture2DGrad"),
   ("textureCubeLodARB", "textureCubeLod"),
   ("textureCubeLodEXT", "textureCubeLod"),
   ("textureCubeGradARB", "textureCubeGrad"),
   ("textureCubeGradEXT", "textureCubeGrad"),
   ("texture2DProjLodARB", "texture2DProjLod"),
   ("texture2DProjLodEXT", "texture2DProjLod"),
   ("texture2DProjGradARB", "texture2DProjGrad"),
   ("texture2DProjGradEXT", "texture2DProjGrad"),
   ("shadow2DARB", "shadow2D"),
   ("shadow2DEXT", "shadow2D"),
   ("shadow2DProjARB", "shadow2DProj"),
   ("shadow2DProjEXT", "shadow2DProj")]

/-- The precision keywords below the highest one. -/
def reducedPrecisions : List String := ["lowp", "mediump"]

/-- One pass for each pair of a word and what replaces it. -/
def replaceEach (pairs : List (String × String)) (s : List Char) : List Char :=
  pairs.foldl (fun text (old, new) => Text.replaceAll old.toList new.toList text) s

/-- A source with the later name for every legacy name. -/
def renameLegacy (source : String) : String :=
  .ofList (replaceEach legacyNames source.toList)

/-- A source with the highest precision for every lower one. -/
def raisePrecision (source : String) : String :=
  .ofList (replaceEach (reducedPrecisions.map (·, "highp")) source.toList)

/-- Optimized text of a stage and dialect, brought up to date.  Metal-like text has neither
    legacy names nor precisions and stays as it is. -/
def modernize (stage : Stage) (dialect : Dialect) (source : String) : String :=
  if dialect.isMetal then source
  else if stage = .vertex then raisePrecision (renameLegacy source)
  else renameLegacy source

end ShaderPack.Source
