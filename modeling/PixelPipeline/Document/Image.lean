import PixelPipeline.Document.Basic
import PixelPipeline.Resource.View

/-!
# Image documents

The written forms of image and view descriptions.
-/

namespace PixelPipeline

open Document (ofNat ofOptional)
open Documented (read? write)

/-- The field names of an image description. -/
def imageDescFields : List String :=
  ["image_type", "format", "width", "height", "depth", "levels", "layers"]

instance : Documented ImageDesc where
  read? d := do
    let [imageType, format, width, height, depth, levels, layers] ←
      d.fields? imageDescFields | none
    return ⟨← read? imageType, ← read? format, ← width.word?, ← height.word?, ← depth.word?,
      ← levels.word?, ← layers.word?⟩
  write d := .record (imageDescFields.zip ([write d.imageType, write d.format] ++
    [d.width, d.height, d.depth, d.levels, d.layers].map ofNat))

instance : Documented (Vector Swizzle 4) where
  read?
    | .list [r, g, b, a] => do return #v[← read? r, ← read? g, ← read? b, ← read? a]
    | _ => none
  write v := .list (v.toList.map write)

/-- The field names of a view description. -/
def viewDescFields : List String :=
  ["format", "base_level", "level_count", "base_layer", "layer_count", "swizzle"]

instance : Documented ViewDesc where
  read? d := do
    let [format, baseLevel, levelCount, baseLayer, layerCount, swizzle] ←
      d.fields? viewDescFields | none
    return ⟨← format.optional? read?, ← baseLevel.word?, ← levelCount.optional? Document.word?,
      ← baseLayer.word?, ← layerCount.optional? Document.word?, ← read? swizzle⟩
  write d := .record (viewDescFields.zip [ofOptional write d.format, ofNat d.baseLevel,
    ofOptional ofNat d.levelCount, ofNat d.baseLayer, ofOptional ofNat d.layerCount,
    write d.swizzle])

end PixelPipeline
