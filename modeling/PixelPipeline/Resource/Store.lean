import PixelPipeline.Image.Codec
import PixelPipeline.Image.Sampler
import PixelPipeline.Log
import PixelPipeline.Resource.View

/-!
# Resources

The images, views, samplers and surfaces of a context, each kind in an arena of
its own.  Destroying an image destroys the views and surfaces that refer to it,
so whatever is live refers to something live.
-/

namespace PixelPipeline

/-- Everything that handles refer to. -/
structure Resources where
  images : Arena .image Image
  views : Arena .view View
  samplers : Arena .sampler Sampler
  surfaces : Arena .surface Surface

namespace Resources

/-- Nothing yet. -/
def empty : Resources := ⟨.empty, .empty, .empty, .empty⟩

instance : Inhabited Resources := ⟨empty⟩

/-- What an arena has under a handle, or the fault of its absence. -/
def resolve {kind : ResourceKind} {α : Type} (arena : Arena kind α) (h : Handle kind) :
    Except Fault α :=
  match arena.get? h with
  | some value => .ok value
  | none => .error (.invalidHandle kind)

/-- The image under a handle. -/
def image (r : Resources) (h : Handle .image) : Except Fault Image := resolve r.images h

/-- The view under a handle. -/
def view (r : Resources) (h : Handle .view) : Except Fault View := resolve r.views h

/-- The sampler under a handle. -/
def sampler (r : Resources) (h : Handle .sampler) : Except Fault Sampler := resolve r.samplers h

/-- The surface under a handle. -/
def surface (r : Resources) (h : Handle .surface) : Except Fault Surface := resolve r.surfaces h

/-! ## Creation and destruction -/

/-- The image handle as log records write it. -/
def imageText (h : Handle .image) : String := "ImageId(" ++ h.text ++ ")"

/-- Creates a zeroed image, where the allocator has room for so many bytes. -/
def createImage (r : Resources) (room : Nat) (d : ImageDesc) :
    Except Fault (Resources × Handle .image × Log) := do
  let image ← Image.create room d
  let (images, h) := r.images.insert image
  let record : LogRecord := ⟨.debug, "created image " ++ imageText h ++ ": " ++ d.text⟩
  return ({ r with images }, h, [record])

/-- Destroys an image with every view and surface of it. -/
def destroyImage (r : Resources) (h : Handle .image) : Option (Resources × Image × Log) := do
  let image ← r.images.get? h
  let views := r.views.filter fun v => v.image != h
  let surfaces := r.surfaces.filter fun s => s.image != h
  let lostViews := r.views.size - views.size
  let lostSurfaces := r.surfaces.size - surfaces.size
  let record : LogRecord := ⟨.debug, "destroyed image " ++ imageText h
    ++ s!" ({lostViews} views, {lostSurfaces} surfaces released)"⟩
  return ({ r with images := r.images.remove h, views, surfaces }, image, [record])

/-- Creates a view of a live image. -/
def createView (r : Resources) (h : Handle .image) (d : ViewDesc) :
    Except Fault (Resources × Handle .view) := do
  let view ← View.create h (← r.image h) d
  let (views, id) := r.views.insert view
  return ({ r with views }, id)

/-- Creates a sampler. -/
def createSampler (r : Resources) (s : Sampler) : Resources × Handle .sampler :=
  let (samplers, id) := r.samplers.insert s
  ({ r with samplers }, id)

/-- Creates a surface of a live image. -/
def createSurface (r : Resources) (h : Handle .image) (level layer : Nat) :
    Except Fault (Resources × Handle .surface) := do
  let surface ← Surface.create h (← r.image h) level layer
  let (surfaces, id) := r.surfaces.insert surface
  return ({ r with surfaces }, id)

/-- Destroys a view. -/
def destroyView (r : Resources) (h : Handle .view) : Resources :=
  { r with views := r.views.remove h }

/-- Destroys a sampler. -/
def destroySampler (r : Resources) (h : Handle .sampler) : Resources :=
  { r with samplers := r.samplers.remove h }

/-- Destroys a surface. -/
def destroySurface (r : Resources) (h : Handle .surface) : Resources :=
  { r with surfaces := r.surfaces.remove h }

/-- Replaces a live image. -/
def modifyImage (r : Resources) (h : Handle .image) (f : Image → Image) : Resources :=
  { r with images := r.images.modify h f }

/-- Replaces the bytes of a layer of a live image. -/
def upload (r : Resources) (h : Handle .image) (level layer : Nat) (bytes : Bytes) :
    Except Fault Resources := do
  let image ← r.image h
  let uploaded ← image.upload level layer bytes
  return r.modifyImage h fun _ => uploaded

/-! ## Texels of surfaces -/

/-- The bytes at a window position of a surface; absent outside of it. -/
def surfaceTexel (r : Resources) (h : Handle .surface) (x y : Nat) :
    Except Fault (Option Bytes) := do
  let surface ← r.surface h
  let image ← r.image surface.image
  return surface.texelIndex? x y >>= image.texel?

/-- Replaces the bytes at a window position of a surface. -/
def setSurfaceTexel (r : Resources) (surface : Surface) (x y : Nat) (bytes : Bytes) : Resources :=
  match surface.texelIndex? x y with
  | some t => r.modifyImage surface.image fun image => image.setTexel t bytes
  | none => r

end Resources

end PixelPipeline
