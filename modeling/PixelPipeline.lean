import PixelPipeline.Context.Clear
import PixelPipeline.Document.Image
import PixelPipeline.Document.State
import PixelPipeline.Ir.Builder
import PixelPipeline.Ir.Postfix
import PixelPipeline.Machine.Listing
import PixelPipeline.Proofs.Blend.CacheRuns
import PixelPipeline.Proofs.Blend.Reuse
import PixelPipeline.Proofs.Context.Fragments
import PixelPipeline.Proofs.Image.Tiling
import PixelPipeline.Proofs.Lowering.Enclosure
import PixelPipeline.Proofs.Blend.Integrity
import PixelPipeline.Proofs.Context.Batches
import PixelPipeline.Proofs.Context.Clearing
import PixelPipeline.Proofs.Context.Order
import PixelPipeline.Proofs.Context.Resolution
import PixelPipeline.Proofs.Resource.Calls
import PixelPipeline.Proofs.Lowering.Acceptable
import PixelPipeline.Proofs.Lowering.Accepted
import PixelPipeline.Proofs.Texture.Range
import PixelPipeline.Proofs.Draw.Locality
import PixelPipeline.Proofs.Draw.Order
import PixelPipeline.Proofs.Binary32.Magnitude
import PixelPipeline.Proofs.Binary32.Clamp
import PixelPipeline.Proofs.Context.Frame
import PixelPipeline.Proofs.Image.Masking
import PixelPipeline.Proofs.Image.DepthStencil
import PixelPipeline.Proofs.Texture.Visits
import PixelPipeline.Proofs.Context.Depth
import PixelPipeline.Proofs.State.Fingerprint
import PixelPipeline.Proofs.Texture.Uniform
import PixelPipeline.Proofs.Texture.Blocks
import PixelPipeline.Proofs.Texture.LevelOfDetail
import PixelPipeline.Proofs.Ir.Building
import PixelPipeline.Proofs.Image.Packing
import PixelPipeline.Proofs.Context.Remembering
import PixelPipeline.Proofs.Image.Readback
import PixelPipeline.Proofs.Texture.Splitting
