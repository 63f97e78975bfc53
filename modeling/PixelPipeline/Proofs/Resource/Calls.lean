import PixelPipeline.Proofs.Resource.Valid

/-!
# Any calls in any order

A user creates, destroys and uploads in any order and under any handles, also
such as nothing was ever stored under or whose resource is gone.  A call that
fails leaves everything as it was; one that succeeds is a `Change`, and changes
keep resources valid.  So validity holds after any calls
(`after_valid`), and what a destruction takes away can then be said of every
handle: the image, and the views and surfaces that name it, but no more
(`Valid.destroyImage_without`).

* `after_refers` — what is live after any calls refers to a live image and lies
  inside it, and destroying an image takes away nothing but what is its own.
-/

namespace PixelPipeline

/-- A call of a user on resources, under handles that may be stale, and with any room
left to the allocator. -/
inductive ResourceCall where
  | createImage (room : Nat) (d : ImageDesc)
  | destroyImage (h : Handle .image)
  | createView (h : Handle .image) (d : ViewDesc)
  | destroyView (h : Handle .view)
  | createSampler (s : Sampler)
  | destroySampler (h : Handle .sampler)
  | createSurface (h : Handle .image) (level layer : Nat)
  | destroySurface (h : Handle .surface)
  | upload (h : Handle .image) (level layer : Nat) (bytes : Bytes)

namespace Resources

variable {r : Resources} {k : ResourceCall}

/-- What a call leaves, or its fault.  Destroying what is not there is none. -/
def call (r : Resources) : ResourceCall → Except Fault Resources
  | .createImage room d => (r.createImage room d).map fun created => created.1
  | .destroyImage h => .ok ((r.destroyImage h).elim r fun destroyed => destroyed.1)
  | .createView h d => (r.createView h d).map fun created => created.1
  | .destroyView h => .ok (r.destroyView h)
  | .createSampler s => .ok (r.createSampler s).1
  | .destroySampler h => .ok (r.destroySampler h)
  | .createSurface h level layer => (r.createSurface h level layer).map fun created => created.1
  | .destroySurface h => .ok (r.destroySurface h)
  | .upload h level layer bytes => r.upload h level layer bytes

/-- The resources after a call; one that fails leaves them as they were. -/
def carry (r : Resources) (k : ResourceCall) : Resources :=
  match r.call k with
  | .ok r' => r'
  | .error _ => r

/-- The resources after some calls on none. -/
def after (calls : List ResourceCall) : Resources := calls.foldl carry empty

/-! ## What calls keep -/

/-- A call leaves everything as it was, or it is an operation. -/
theorem carry_change (r : Resources) (k : ResourceCall) :
    r.carry k = r ∨ r.Change (r.carry k) := by
  unfold carry
  cases k with
  | createImage room d =>
    cases hcreate : r.createImage room d with
    | error fault => exact .inl (by simp only [call, hcreate, Except.map])
    | ok created =>
      simp only [call, hcreate, Except.map]
      exact .inr (.createImage room d hcreate)
  | destroyImage h =>
    cases hdestroy : r.destroyImage h with
    | none => exact .inl (by simp only [call, hdestroy, Option.elim_none])
    | some destroyed =>
      simp only [call, hdestroy, Option.elim_some]
      exact .inr (.destroyImage hdestroy)
  | createView h d =>
    cases hcreate : r.createView h d with
    | error fault => exact .inl (by simp only [call, hcreate, Except.map])
    | ok created =>
      simp only [call, hcreate, Except.map]
      exact .inr (.createView hcreate)
  | destroyView h => exact .inr (.destroyView h)
  | createSampler s => exact .inr (.createSampler s)
  | destroySampler h => exact .inr (.destroySampler h)
  | createSurface h level layer =>
    cases hcreate : r.createSurface h level layer with
    | error fault => exact .inl (by simp only [call, hcreate, Except.map])
    | ok created =>
      simp only [call, hcreate, Except.map]
      exact .inr (.createSurface hcreate)
  | destroySurface h => exact .inr (.destroySurface h)
  | upload h level layer bytes =>
    cases hupload : r.upload h level layer bytes with
    | error fault => exact .inl (by simp only [call, hupload])
    | ok r' =>
      simp only [call, hupload]
      exact .inr (.upload hupload)

/-- Any call keeps resources valid. -/
theorem Valid.carry (hvalid : r.Valid) (k : ResourceCall) : (r.carry k).Valid := by
  obtain hsame | hchange := r.carry_change k
  · rw [hsame]
    exact hvalid
  · exact hchange.valid hvalid

/-- So do any calls. -/
theorem Valid.calls (hvalid : r.Valid) (calls : List ResourceCall) :
    (calls.foldl Resources.carry r).Valid := by
  induction calls generalizing r with
  | nil => exact hvalid
  | cons k rest ih => exact ih (hvalid.carry k)

/-- Whatever was called, the resources are valid. -/
theorem after_valid (calls : List ResourceCall) : (after calls).Valid := valid_empty.calls calls

/-! ## What a destruction takes away -/

/-- The second resources are the first without an image and whatever names it:
every other handle resolves as before. -/
structure Without (r : Resources) (h : Handle .image) (r' : Resources) : Prop where
  images : ∀ k, r'.images.get? k = if k = h then none else r.images.get? k
  views : ∀ k, r'.views.get? k = (r.views.get? k).filter fun v => v.image != h
  samplers : r'.samplers = r.samplers
  surfaces : ∀ k, r'.surfaces.get? k = (r.surfaces.get? k).filter fun s => s.image != h

/-- A value that a filter would keep stays. -/
theorem filter_of_keeps {α : Type} {o : Option α} {keep : α → Bool}
    (hkeep : ∀ a, o = some a → keep a = true) : o.filter keep = o := by
  cases o with
  | none => rfl
  | some a => rw [Option.filter_some, if_pos (hkeep a rfl)]

/-- Nothing names an image that is not there. -/
theorem Valid.without (hvalid : r.Valid) {h : Handle .image} (habsent : r.images.get? h = none) :
    r.Without h r where
  images k := by
    by_cases hk : k = h
    · rw [if_pos hk, hk, habsent]
    · rw [if_neg hk]
  views k := by
    refine (filter_of_keeps fun v hget => ?_).symm
    obtain ⟨i, himage, -⟩ := hvalid.viewed k v hget
    have hne : v.image ≠ h := fun heq => by simp [heq, habsent] at himage
    simpa using hne
  samplers := rfl
  surfaces k := by
    refine (filter_of_keeps fun s hget => ?_).symm
    obtain ⟨i, himage, -⟩ := hvalid.drawn k s hget
    have hne : s.image ≠ h := fun heq => by simp [heq, habsent] at himage
    simpa using hne

/-- A destroyed image is gone, and a handle that does not resolve destroys nothing. -/
theorem carry_destroyImage (r : Resources) (h : Handle .image) :
    r.carry (.destroyImage h) = (r.destroyImage h).elim r fun destroyed => destroyed.1 := rfl

/-- Destroying an image leaves the resources without it, also if it is gone
already. -/
theorem Valid.destroyImage_without (hvalid : r.Valid) (h : Handle .image) :
    r.Without h (r.carry (.destroyImage h)) := by
  rw [carry_destroyImage]
  cases hdestroy : r.destroyImage h with
  | none =>
    have habsent : r.images.get? h = none := by
      cases hget : r.images.get? h with
      | none => rfl
      | some i => simp [destroyImage, hget] at hdestroy
    exact hvalid.without habsent
  | some destroyed =>
    obtain ⟨r', i, log⟩ := destroyed
    obtain ⟨-, rfl⟩ := destroyImage_eq_some hdestroy
    exact ⟨fun k => r.images.get?_remove h k, fun k => Arena.get?_filter hvalid.views _ k, rfl,
      fun k => Arena.get?_filter hvalid.surfaces _ k⟩

/-- **What is live refers to what is live.**  After any calls, under any handles:
a live view shows levels and layers, some of each, that a live image has, in a
format that its texels can be read in; a live surface is a level of a layer of a
live image, with its format and the extent of that level.  Destroying an image
takes away that image with the views and surfaces that name it, and every other
handle resolves as before.  A call that fails changes nothing. -/
theorem after_refers (calls : List ResourceCall) :
    let r := after calls
    (∀ h v, r.view h = .ok v → ∃ i, r.image v.image = .ok i ∧ v.Of i.desc) ∧
      (∀ h s, r.surface h = .ok s → ∃ i, r.image s.image = .ok i ∧ s.Of i.desc) ∧
      (∀ h, r.Without h (r.carry (.destroyImage h))) ∧
      ∀ k fault, r.call k = .error fault → r.carry k = r := by
  have hvalid := after_valid calls
  refine ⟨fun h v hview => ?_, fun h s hsurface => ?_, hvalid.destroyImage_without,
    fun k fault hfault => ?_⟩
  · obtain ⟨i, himage, hof⟩ := hvalid.viewed h v (resolve_eq_ok.mp hview)
    exact ⟨i, image_eq_ok.mpr himage, hof⟩
  · obtain ⟨i, himage, hof⟩ := hvalid.drawn h s (surface_eq_ok.mp hsurface)
    exact ⟨i, image_eq_ok.mpr himage, hof⟩
  · unfold carry
    rw [hfault]

end Resources

end PixelPipeline
