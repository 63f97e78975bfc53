import PixelPipeline.Document.Basic
import PixelPipeline.Settings
import PixelPipeline.State.Codes
import PixelPipeline.State.MaskText
import PixelPipeline.State.Raster

/-!
# State documents

The written forms of the pipeline state and of the settings.
-/

namespace PixelPipeline

open Document (ofNat orDefault?)
open Documented (read? write)

instance : Documented ColorMask where
  read?
    | .text t => ColorMask.ofText? t
    | _ => none
  write m := .text m.text

/-- The field names shared by attachments and their numeric form. -/
def attachmentFields : List String :=
  ["enable", "src_rgb", "dst_rgb", "src_alpha", "dst_alpha", "eq_rgb", "eq_alpha", "color_mask"]

instance : Documented BlendAttachment where
  read? d := do
    let [enable, srcRgb, dstRgb, srcAlpha, dstAlpha, eqRgb, eqAlpha, mask] ←
      d.fields? attachmentFields | none
    return ⟨← enable.switch?, ← read? srcRgb, ← read? dstRgb, ← read? srcAlpha,
      ← read? dstAlpha, ← read? eqRgb, ← read? eqAlpha, ← read? mask⟩
  write a := .record (attachmentFields.zip [.switch a.enable, write a.srcRgb, write a.dstRgb,
    write a.srcAlpha, write a.dstAlpha, write a.eqRgb, write a.eqAlpha, write a.colorMask])

instance : Documented AttachmentCodes where
  read? d := do
    let [enable, srcRgb, dstRgb, srcAlpha, dstAlpha, eqRgb, eqAlpha, mask] ←
      d.fields? attachmentFields | none
    return ⟨← enable.switch?, ← srcRgb.word?, ← dstRgb.word?, ← srcAlpha.word?,
      ← dstAlpha.word?, ← eqRgb.word?, ← eqAlpha.word?, ← mask.nat? 256⟩
  write a := .record (attachmentFields.zip (.switch a.enable :: [a.srcRgb, a.dstRgb, a.srcAlpha,
    a.dstAlpha, a.eqRgb, a.eqAlpha, a.colorMask].map ofNat))

/-- The field names of a pipeline state. -/
def pipelineFields : List String := ["attachment", "blend_enabled", "depth_write"]

instance : Documented PipelineState where
  read? d := do
    let [attachment, blendEnabled, depthWrite] ← d.fields? pipelineFields | none
    return ⟨← read? attachment, ← blendEnabled.switch?, ← depthWrite.switch?⟩
  write s := .record (pipelineFields.zip
    [write s.attachment, .switch s.blendEnabled, .switch s.depthWrite])

/-- The field names of a stencil face. -/
def stencilFaceFields : List String :=
  ["compare", "fail_op", "depth_fail_op", "pass_op", "compare_mask", "write_mask"]

instance : Documented StencilFace where
  read? d := do
    let [compare, failOp, depthFailOp, passOp, compareMask, writeMask] ←
      d.fields? stencilFaceFields | none
    return ⟨← read? compare, ← read? failOp, ← read? depthFailOp, ← read? passOp,
      ← compareMask.byte?, ← writeMask.byte?⟩
  write f := .record (stencilFaceFields.zip [write f.compare, write f.failOp,
    write f.depthFailOp, write f.passOp, ofNat f.compareMask.toNat, ofNat f.writeMask.toNat])

/-- The field names of the depth and stencil configuration. -/
def depthStencilFields : List String :=
  ["depth_test", "depth_write", "depth_compare", "stencil_test", "front", "back"]

instance : Documented DepthStencilState where
  read? d := do
    let [depthTest, depthWrite, depthCompare, stencilTest, front, back] ←
      d.fields? depthStencilFields | none
    return ⟨← depthTest.switch?, ← depthWrite.switch?, ← read? depthCompare,
      ← stencilTest.switch?, ← read? front, ← read? back⟩
  write s := .record (depthStencilFields.zip [.switch s.depthTest, .switch s.depthWrite,
    write s.depthCompare, .switch s.stencilTest, write s.front, write s.back])

/-- The field names of the rasterizer switches. -/
def rasterizerFields : List String := ["rasterizer_discard", "depth_clamp", "scissor_test"]

instance : Documented RasterizerState where
  read? d := do
    let [discard, depthClamp, scissorTest] ← d.fields? rasterizerFields | none
    return ⟨← discard.switch?, ← depthClamp.switch?, ← scissorTest.switch?⟩
  write s := .record (rasterizerFields.zip
    [.switch s.discard, .switch s.depthClamp, .switch s.scissorTest])

/-- The field names of a rectangle. -/
def rectFields : List String := ["x", "y", "width", "height"]

instance : Documented ScissorRect where
  read? d := do
    let [x, y, width, height] ← d.fields? rectFields | none
    return ⟨← x.int? 32, ← y.int? 32, ← width.word?, ← height.word?⟩
  write r := .record (rectFields.zip [.number r.x, .number r.y, ofNat r.width, ofNat r.height])

/-- The field names of settings. -/
def settingsFields : List String :=
  ["cache_capacity", "cache_buckets", "texture_units", "trace_generated_code"]

instance : Documented Settings where
  read? d := do
    let [capacity, buckets, units, trace] ← d.partialFields? settingsFields | none
    let count := Document.nat? (2 ^ 64)
    let base : Settings := default
    return ⟨← orDefault? base.cacheCapacity count capacity,
      ← orDefault? base.cacheBuckets count buckets,
      ← orDefault? base.textureUnits count units,
      ← orDefault? base.traceGeneratedCode Document.switch? trace⟩
  write s := .record (settingsFields.zip [ofNat s.cacheCapacity, ofNat s.cacheBuckets,
    ofNat s.textureUnits, .switch s.traceGeneratedCode])

end PixelPipeline
