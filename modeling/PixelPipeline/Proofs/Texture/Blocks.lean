import PixelPipeline.Proofs.Texture.Range

/-!
# Remembered blocks

A filter remembers the block that it decoded last and where it starts, and nothing else: not
the block's format, which one filter never changes, nor its bytes.  That a fetch may take the
remembered block for the bytes it found is an invariant of the memory (`Fresh`), so every
fetch answers, or fails, as it would with nothing remembered (`Fresh.fetch_eq`), and so do
any number of fetches in any order (`Fresh.answers_eq`).

`Forgets` relates a computation with a memory to one without.  It holds of filters because
it does of their fetches.

The texels of a block share its storage unit, also in the last blocks of a row or a column,
which extend beyond the level (`texelOffset?_corner`).  So the entry that is answered is the
one of the texel in the block that contains it.

* `fetches_blocks` — fetching through a memory is decoding the block of each texel.
-/

namespace PixelPipeline

/-! ## Blocks -/

/-- The texel in the corner of the block. -/
def TexelIndex.corner (t : TexelIndex) : TexelIndex :=
  { t with x := 4 * (t.x / 4), y := 4 * (t.y / 4) }

namespace Image

variable {i : Image} {t : TexelIndex}

/-- The corner of a texel's block is a texel. -/
theorem Contains.corner (ht : i.Contains t) : i.Contains t.corner :=
  ⟨ht.level, ht.layer, Nat.lt_of_le_of_lt (Nat.mul_div_le t.x 4) ht.x,
    Nat.lt_of_le_of_lt (Nat.mul_div_le t.y 4) ht.y, ht.z⟩

/-- A texel and the corner of its block share a storage unit. -/
theorem unit_corner (hcompressed : i.desc.format.isCompressed = true) :
    i.unit t.corner = i.unit t := by
  have hextent : i.desc.format.blockExtent = 4 := if_pos hcompressed
  unfold unit unitIndex TexelIndex.corner
  rw [hextent, Nat.mul_div_cancel_left _ (by decide), Nat.mul_div_cancel_left _ (by decide)]

/-- **A block is stored where its corner is**, however much of it lies beyond the level. -/
theorem texelOffset?_corner (hcompressed : i.desc.format.isCompressed = true)
    (ht : i.Contains t) : i.texelOffset? t.corner = i.texelOffset? t := by
  rw [texelOffset?_eq ht, texelOffset?_eq ht.corner]
  unfold address
  rw [unit_corner hcompressed]
  rfl

end Image

namespace TexelSource

variable {s : TexelSource} {memory memory' : BlockMemory} {t : TexelIndex} {kind : BlockKind}
  {indices : List Int} {calls : List (List Int)}

/-- The entry of a texel in the block that contains it, decoded for this texel alone. -/
def blockTexel? (s : TexelSource) (kind : BlockKind) (t : TexelIndex) : Option Color := do
  let block ← s.image.texel? t.corner
  let texels ← Block.decode? kind block
  return texels.get ⟨t.x % 4 + 4 * (t.y % 4), by omega⟩

/-- The answer for a texel: its colour, or that there is no such texel. -/
def answerOf (t : TexelIndex) : Option Color → Except Fault Color
  | some color => .ok color
  | none => .error (.invalidImage (.sampledOutside t))

/-- The answer at the given indices, from the block that contains the texel. -/
def blockAnswer (s : TexelSource) (kind : BlockKind) (indices : List Int) : Except Fault Color :=
  answerOf (s.texelIndex indices) (s.blockTexel? kind (s.texelIndex indices))

/-- The answer at the given indices with nothing remembered. -/
def fetchAfresh (s : TexelSource) (indices : List Int) : Except Fault Color :=
  (s.fetch indices none).map Prod.fst

/-- The answers of fetches one after the other, through one memory; a fetch that fails leaves
it as it was. -/
def answers (s : TexelSource) : BlockMemory → List (List Int) → List (Except Fault Color)
  | _, [] => []
  | memory, indices :: rest =>
    match s.fetch indices memory with
    | .ok (color, memory') => .ok color :: s.answers memory' rest
    | .error fault => .error fault :: s.answers memory rest

/-- With blocks that are what their bytes decode to, nothing depends on the memory. -/
theorem Fresh.fetch?_map (hfresh : s.Fresh memory) :
    (s.fetch? memory t).map Prod.fst = s.decoded? t := by
  unfold decoded? TexelSource.fetch?
  cases hoffset : s.image.texelOffset? t with
  | none => rfl
  | some offset =>
    simp only [Option.bind_eq_bind, Option.bind_some]
    cases hbytes : s.image.bytesAt? offset s.format.stride with
    | none => rfl
    | some bytes =>
      simp only [Option.bind_some]
      cases hlayout : s.format.layout with
      | block kind =>
        simp only [hfresh.blockTexels?_eq hlayout hbytes,
          s.fresh_none.blockTexels?_eq hlayout hbytes]
      | _ => cases s.format.decode? bytes <;> rfl

/-- A fresh memory answers as the image does. -/
theorem Fresh.fetch_map (hfresh : s.Fresh memory) (indices : List Int) :
    (s.fetch indices memory).map Prod.fst
      = answerOf (s.texelIndex indices) (s.decoded? (s.texelIndex indices)) := by
  rw [← hfresh.fetch?_map]
  unfold TexelSource.fetch
  simp only
  cases s.fetch? memory (s.texelIndex indices) with
  | none => rfl
  | some answer => rfl

/-- **A fetch answers, or fails, as it would with nothing remembered.** -/
theorem Fresh.fetch_eq (hfresh : s.Fresh memory) (indices : List Int) :
    (s.fetch indices memory).map Prod.fst = s.fetchAfresh indices :=
  (hfresh.fetch_map indices).trans (s.fresh_none.fetch_map indices).symm

/-- **So do any number of fetches**, in whatever order, and those that fail among them. -/
theorem Fresh.answers_eq (hfresh : s.Fresh memory) (calls : List (List Int)) :
    s.answers memory calls = calls.map s.fetchAfresh := by
  induction calls generalizing memory with
  | nil => rfl
  | cons indices rest ih =>
    unfold answers
    rw [List.map_cons, ← hfresh.fetch_eq indices]
    cases hfetch : s.fetch indices memory with
    | error fault => exact congrArg _ (ih hfresh)
    | ok answer => exact congrArg _ (ih (hfresh.fetch hfetch).2)

/-- Of a texel of the level the bytes decode to its entry in its block. -/
theorem decoded?_eq (hlayout : s.format.layout = .block kind)
    (hstride : s.format.stride = s.image.desc.format.stride)
    (hcompressed : s.image.desc.format.isCompressed = true) (ht : s.image.Contains t) :
    s.decoded? t = s.blockTexel? kind t := by
  have hentry : ∀ texels : Block.Texels,
      blockEntry t texels = texels.get ⟨t.x % 4 + 4 * (t.y % 4), by omega⟩ := by
    intro texels
    unfold blockEntry
    rw [Vector.getElem?_eq_getElem (by omega)]
    rfl
  unfold decoded? fetch? blockTexel? Image.texel?
  rw [Image.texelOffset?_corner hcompressed ht, ← hstride]
  simp only [hlayout, hentry]
  cases s.image.texelOffset? t with
  | none => rfl
  | some offset =>
    simp only [Option.bind_eq_bind, Option.bind_some]
    cases s.image.bytesAt? offset s.format.stride with
    | none => rfl
    | some bytes =>
      simp only [Option.bind_some]
      change Option.map Prod.fst ((Block.decode? kind bytes).bind _) = _
      cases Block.decode? kind bytes with
      | none => rfl
      | some texels => rfl

end TexelSource

/-! ## Filters -/

section

variable {σ ε α β : Type} {I : σ → Prop}

/-- Started in a state with the invariant, the computation answers, or fails, as the one
without a state does, and keeps the invariant. -/
def Forgets (I : σ → Prop) (x : StateT σ (Except ε) α) (y : Except ε α) : Prop :=
  ∀ s, I s → (x s).map Prod.fst = y ∧ ∀ a s', x s = .ok (a, s') → I s'

variable {x : StateT σ (Except ε) α} {y : Except ε α}

/-- An answer needs no memory. -/
theorem Forgets.pure (a : α) : Forgets I (Pure.pure a : StateT σ (Except ε) α) (Pure.pure a) := by
  refine fun s hs => ⟨rfl, fun a' s' hrun => ?_⟩
  obtain ⟨-, rfl⟩ := Prod.mk.inj (Except.ok.inj hrun)
  exact hs

/-- Computations in sequence need no memory if none of them does. -/
theorem Forgets.bind {f : α → StateT σ (Except ε) β} {g : α → Except ε β}
    (hfirst : Forgets I x y) (hrest : ∀ a, Forgets I (f a) (g a)) :
    Forgets I (x >>= f) (y >>= g) := by
  intro s hs
  obtain ⟨hanswer, hkeeps⟩ := hfirst s hs
  rw [← hanswer]
  change ((x s >>= fun p => f p.1 p.2).map Prod.fst = _) ∧ ∀ b s', (x s >>= fun p => f p.1 p.2)
    = .ok (b, s') → I s'
  cases hx : x s with
  | error fault => exact ⟨rfl, fun b s' hrun => by cases hrun⟩
  | ok p => exact hrest p.1 p.2 (hkeeps p.1 p.2 hx)

/-- Needing no memory is kept by sequences. -/
theorem Forgets.composes :
    RelationComposes fun α (x : StateT σ (Except ε) α) (y : Except ε α) => Forgets I x y :=
  ⟨Forgets.pure, Forgets.bind⟩

end

/-- **Filtering through a memory is filtering without one.** -/
theorem TexelSource.filter_fetch (s : TexelSource) (mode : FilterMode) (border : Color)
    (axes : List AxisCoord) (chosen : List Int) :
    (filter mode border s.fetch axes chosen none).map Prod.fst
      = filter mode border s.fetchAfresh axes chosen := by
  have hfetch : ∀ indices, Forgets s.Fresh (s.fetch indices) (s.fetchAfresh indices) :=
    fun indices memory hfresh =>
      ⟨hfresh.fetch_eq indices, fun color memory' hanswer => (hfresh.fetch hanswer).2⟩
  have hfilter : Forgets s.Fresh (filter mode border s.fetch axes chosen)
      (filter mode border s.fetchAfresh axes chosen) :=
    Forgets.composes.filter fun indices _ => hfetch (chosen ++ indices)
  exact (hfilter none s.fresh_none).1

namespace BoundTexture

variable {d : ImageDesc} {created image : Image} {h : Handle .image} {vd : ViewDesc} {view : View}
  {kind : BlockKind} {room : Nat}

/-- **Fetching through a memory is decoding the block of each texel.**  Of the texels of a
view with blocks, fetched in any order through one memory, each is answered with its entry in
the block that contains it, decoded for it alone.  Filters, and the colours that are sampled,
are those without a memory.  There is a colour for every texel. -/
theorem fetches_blocks (hcreate : Image.create room d = .ok created)
    (hview : View.create h created vd = .ok view) (hframe : image.frame = created.frame)
    (hlayout : view.format.layout = .block kind) (sampler : Sampler) (level layer : Nat) :
    let b : BoundTexture := ⟨image, view, sampler⟩
    let s := b.source level layer
    (∀ calls : List (List Int), (∀ indices ∈ calls, image.Contains (s.texelIndex indices)) →
      s.answers none calls = calls.map (s.blockAnswer kind)) ∧
    (∀ mode border axes chosen, (filter mode border s.fetch axes chosen none).map Prod.fst
      = filter mode border s.fetchAfresh axes chosen) ∧
    (∀ coord mode, b.selectedLayer coord = .ok layer → b.sampleLevel coord level mode
      = filter mode sampler.border s.fetchAfresh (b.axes coord level) []) ∧
    (∀ indices, image.Contains (s.texelIndex indices) →
      s.fetchAfresh indices = s.blockAnswer kind indices ∧
        ∃ color, s.blockAnswer kind indices = .ok color) := by
  intro b s
  have hdesc : image.desc = d :=
    (congrArg Prod.fst hframe).trans (Image.create_eq_ok hcreate).1
  obtain ⟨-, hof⟩ := View.create_eq_ok hview
  rw [(Image.create_eq_ok hcreate).1] at hof
  have hcompressed : s.image.desc.format.isCompressed = true := by
    have hblocks : view.format.isCompressed = true := by
      unfold Format.isCompressed
      rw [hlayout]
    change image.desc.format.isCompressed = true
    rw [hdesc, ← hof.compressed, hblocks]
  have hstride : s.format.stride = s.image.desc.format.stride := hdesc ▸ hof.stride
  have hentry : ∀ indices, image.Contains (s.texelIndex indices) →
      s.fetchAfresh indices = s.blockAnswer kind indices := by
    intro indices ht
    unfold TexelSource.fetchAfresh TexelSource.blockAnswer
    rw [s.fresh_none.fetch_map, s.decoded?_eq hlayout hstride hcompressed ht]
  refine ⟨fun calls hinside => ?_, fun mode border axes chosen => s.filter_fetch ..,
    fun coord mode hselected => ?_, fun indices ht => ⟨hentry indices ht, ?_⟩⟩
  · rw [s.fresh_none.answers_eq]
    exact List.map_congr_left fun indices hmem => hentry indices (hinside indices hmem)
  · rw [sampleLevel_eq hselected]
    exact s.filter_fetch ..
  · have hsound : s.Sound := sound_source hcreate hview hframe (hdesc ▸ ht.level)
      (hdesc ▸ ht.layer) sampler
    obtain ⟨offset, bytes, hoffset, -, hbytes, hdecodes⟩ := hsound.bytes ht
    obtain ⟨color, memory, hanswer⟩ := TexelSource.fetch_eq_ok hoffset hbytes hdecodes none
    rw [← hentry indices ht]
    exact ⟨color, congrArg (Except.map Prod.fst) hanswer⟩

/-- Back and forth between a whole block and one that is a column wide. -/
theorem fetches_blocks_blockLevels : ∃ image view color,
    Image.create 24 blockLevels = .ok image ∧
      View.create Handle.null image { (default : ViewDesc) with format := some .bc4Snorm }
        = .ok view ∧
      (source ⟨image, view, Sampler.linear⟩ 0 0).answers none [[4, 3], [0, 0], [3, 1], [4, 0]]
        = [[4, 3], [0, 0], [3, 1], [4, 0]].map
          ((source ⟨image, view, Sampler.linear⟩ 0 0).blockAnswer (.bc4 true)) ∧
      (source ⟨image, view, Sampler.linear⟩ 0 0).blockAnswer (.bc4 true) [4, 3] = .ok color := by
  let image : Image := ⟨blockLevels, Array.replicate blockLevels.byteSize 0⟩
  let view : View := ⟨Handle.null, .bc4Snorm, 0, 2, 0, 1, Swizzle.identity⟩
  have hcreate : Image.create 24 blockLevels = .ok image := rfl
  have hview : View.create Handle.null image { (default : ViewDesc) with format := some .bc4Snorm }
      = .ok view := rfl
  have hinside : ∀ x y : Nat, x < 5 → y < 4 → image.Contains ⟨0, 0, x, y, 0⟩ := fun x y hx hy =>
    ⟨Nat.two_pos, Nat.one_pos, hx, hy, Nat.one_pos⟩
  obtain ⟨hcalls, -, -, hanswers⟩ :=
    fetches_blocks hcreate hview rfl rfl Sampler.linear 0 0
  obtain ⟨color, hcolor⟩ := (hanswers [4, 3] (hinside 4 3 (by decide) (by decide))).2
  refine ⟨image, view, color, hcreate, hview, hcalls _ ?_, hcolor⟩
  intro indices hmem
  simp only [List.mem_cons, List.not_mem_nil, or_false] at hmem
  rcases hmem with rfl | rfl | rfl | rfl <;> exact hinside _ _ (by decide) (by decide)

end BoundTexture

end PixelPipeline
