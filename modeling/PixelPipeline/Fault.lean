import PixelPipeline.Image.Desc
import PixelPipeline.Ir.Fault
import PixelPipeline.Text.Hex

/-!
# Faults

Every way in which the pipeline fails, one constructor per cause with what the
report needs.  All of them but `overflow` are reported to the caller, who can go on;
after an overflow nothing goes on.  `Fault.message` puts a cause into words; nothing
else in the library does.
-/

namespace PixelPipeline

/-- A field of the state that arrives as a numeric code. -/
inductive StateField where
  | blendFactor
  | blendEquation
  | colorMask
  | compareOp
  | stencilOp
  deriving DecidableEq, Repr

/-- The field in words. -/
def StateField.text : StateField → String
  | .blendFactor => "blend factor"
  | .blendEquation => "blend equation"
  | .colorMask => "color mask"
  | .compareOp => "compare op"
  | .stencilOp => "stencil op"

/-- What a render target stores. -/
inductive Aspect where
  | color
  | depth
  | stencil
  deriving DecidableEq, Repr

/-- The aspect in words. -/
def Aspect.text : Aspect → String
  | .color => "color"
  | .depth => "depth"
  | .stencil => "stencil"

/-- What a handle can refer to. -/
inductive ResourceKind where
  | image
  | view
  | sampler
  | surface
  | blendUnit
  deriving DecidableEq, Repr

/-- The kind in words. -/
def ResourceKind.text : ResourceKind → String
  | .image => "image"
  | .view => "image view"
  | .sampler => "sampler"
  | .surface => "surface"
  | .blendUnit => "blend unit"

/-- What is wrong with a description. -/
inductive DescFlaw where
  | zeroExtent
  | levelCount
  | layerCount
  | notFlat1D
  | notFlat2D
  | tooLarge
  deriving DecidableEq, Repr

/-- The flaw in words. -/
def DescFlaw.text : DescFlaw → String
  | .zeroExtent => "zero extent"
  | .levelCount => "level count out of range"
  | .layerCount => "layer count does not match image type"
  | .notFlat1D => "1D images have unit height and depth"
  | .notFlat2D => "2D images have unit depth"
  | .tooLarge => "image too large"

/-- A cause for refusing an image, its use or its data. -/
inductive ImageFault where
  | desc (flaw : DescFlaw) (desc : ImageDesc)
  | missingLayer (level layer : Nat)
  | uploadSize (given expected : Nat)
  | viewLevels (count base levels : Nat)
  | viewLayers (count base layers : Nat)
  | surfaceOutside (level layer : Nat)
  /-- A texel write into a buffer shorter than a texel. -/
  | shortTexel (stride : Nat)
  /-- A target has no texel of this aspect at a window position. -/
  | missingTexel (aspect : Aspect) (x y : Nat)
  /-- A sampled texel lies outside its level. -/
  | sampledOutside (texel : TexelIndex)
  /-- A shader or a texel source refused for a reason of its own. -/
  | refused (reason : String)
  deriving DecidableEq, Repr

/-- The cause in words. -/
def ImageFault.text : ImageFault → String
  | .desc flaw d => flaw.text ++ ": " ++ d.text
  | .missingLayer level layer => s!"level {level} layer {layer} does not exist"
  | .uploadSize given expected => s!"upload of {given} bytes into a {expected}-byte level"
  | .viewLevels count base levels =>
    s!"view of {count} levels from {base} outside image with {levels} levels"
  | .viewLayers count base layers =>
    s!"view of {count} layers from {base} outside image with {layers} layers"
  | .surfaceOutside level layer => s!"surface level {level} layer {layer} outside image"
  | .shortTexel stride => s!"texel write of {stride} bytes out of bounds"
  | .missingTexel aspect x y => "no " ++ aspect.text ++ s!" texel at ({x}, {y})"
  | .sampledOutside t =>
    s!"texel ({t.x}, {t.y}, {t.z}) outside level {t.level} layer {t.layer}"
  | .refused reason => reason

/-- A setting that must be at least one. -/
inductive CountSetting where
  | cacheCapacity
  | cacheBuckets
  | textureUnits
  deriving DecidableEq, Repr

/-- The setting's written name. -/
def CountSetting.text : CountSetting → String
  | .cacheCapacity => "cache_capacity"
  | .cacheBuckets => "cache_buckets"
  | .textureUnits => "texture_units"

/-- Every failure. -/
inductive Fault where
  /-- A numeric code that names nothing. -/
  | undefinedState (field : StateField) (value : Nat)
  | compile (cause : Ir.CompileFault)
  /-- The storage of an image could not be allocated. -/
  | outOfMemory (bytes : Nat)
  | unsupportedFetch (format : Format) (imageType : ImageType)
  | unsupportedTarget (format : Format) (aspect : Aspect)
  | incompatibleView (image view : Format)
  | invalidHandle (kind : ResourceKind)
  | invalidImage (cause : ImageFault)
  | textureUnit (unit max : Nat)
  | zeroSetting (setting : CountSetting)
  /-- A sum or product left its word where nothing looks: the program stops, and no
  answer is reported. -/
  | overflow
  deriving DecidableEq, Repr

/-- The failure in words. -/
def Fault.message : Fault → String
  | .undefinedState field value => "Unsupported " ++ field.text ++ " value: " ++ Hex.code value
  | .compile cause => "Blend unit compilation failed: " ++ cause.message
  | .outOfMemory bytes => s!"Out of memory allocating image storage ({bytes} bytes)"
  | .unsupportedFetch f t =>
    "Format " ++ Named.name f ++ " cannot be sampled from a " ++ Named.name t ++ " image"
  | .unsupportedTarget f aspect =>
    "Format " ++ Named.name f ++ " is not renderable as a " ++ aspect.text ++ " target"
  | .incompatibleView image view =>
    "View format " ++ Named.name view ++ " is incompatible with image format " ++ Named.name image
  | .invalidHandle kind => "Invalid " ++ kind.text ++ " handle"
  | .invalidImage cause => "Invalid image: " ++ cause.text
  | .textureUnit unit max => s!"Texture unit {unit} out of range (max {max})"
  | .zeroSetting setting => "Invalid settings: " ++ setting.text ++ " must be at least 1"
  | .overflow => "arithmetic overflow"

end PixelPipeline
