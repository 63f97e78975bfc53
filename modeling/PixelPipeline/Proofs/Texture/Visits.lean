import PixelPipeline.Proofs.Texture.Taps

/-!
# The fetches of a filter

An axis has a row of taps, one after the other from the first tap of its filter on, at
coordinates that stay in the 64-bit range.  A tap that wraps to an index of the axis is
there to be fetched (`AxisCoord.taps`), and a path takes such a tap on every axis.  The
paths in lexicographic order, the outermost axis first, are the fetches that a filter
makes (`FilterMode.paths`); from their answers its result is folded axis by axis, with
the border colour for the taps that are not there (`FilterMode.foldTaps`).

A fetch may fail, and may change a state that survives the failure.  `recorded` notes
what a fetch is asked for and what it answers.  `Calls` says of a computation which
fetches it makes: those of a list in order until one fails, and then it has failed with
that fault; if none fails, its result follows from the answers.  The row of an axis is
done tap by tap (`calls_row`), and the axes by induction (`calls_filter`).

* `filter_traced` — the fetches of a filter are the paths of its taps.
-/

namespace PixelPipeline

/-! ## Taps and paths -/

/-- The coordinate in the 64-bit range that is nearest. -/
def saturated (v : Int) : Int := max (-(2 ^ 63)) (min v (2 ^ 63 - 1))

namespace FilterMode

/-- The place of the first tap, relative to the texel of the coordinate. -/
def first : FilterMode → Int
  | .nearest | .linear => 0
  | .cubic => -1

/-- How many taps there are along an axis. -/
def tapCount : FilterMode → Nat
  | .nearest => 1
  | .linear => 2
  | .cubic => 4

end FilterMode

/-- A tap that falls on a texel of its axis. -/
structure Tap where
  /-- Which tap of the row it is. -/
  number : Nat
  /-- The index on the axis. -/
  index : Int
  deriving DecidableEq, Repr

/-- The index that a tap of the row wraps to; absent outside a border. -/
def AxisCoord.wrapped (axis : AxisCoord) (mode : FilterMode) (number : Nat) : Option Int :=
  axis.mode.wrap axis.size (saturated (axis.block + mode.first + number))

/-- The taps of an axis that are not outside a border. -/
def AxisCoord.taps (axis : AxisCoord) (mode : FilterMode) : List Tap :=
  (List.range mode.tapCount).filterMap fun number => (axis.wrapped mode number).map (⟨number, ·⟩)

/-- All choices of one element from each list, in lexicographic order. -/
def lexProduct {α : Type} : List (List α) → List (List α)
  | [] => [[]]
  | row :: rows => row.flatMap fun a => (lexProduct rows).map (a :: ·)

namespace FilterMode

/-- A tap on every axis, in the order of the fetches. -/
def paths (mode : FilterMode) (axes : List AxisCoord) : List (List Tap) :=
  lexProduct (axes.map (·.taps mode))

/-- The result of filtering, from an answer for each path. -/
def foldTaps (mode : FilterMode) (border : Color) : List AxisCoord → (List Tap → Color) → Color
  | [], answer => answer []
  | axis :: inner, answer =>
    mode.combine axis.frac <| (List.range mode.tapCount).map fun number =>
      match axis.wrapped mode number with
      | some index => mode.foldTaps border inner fun path => answer (⟨number, index⟩ :: path)
      | none => border

/-- The row of taps, from the first one on. -/
theorem offsets_eq (mode : FilterMode) :
    mode.offsets = (List.range mode.tapCount).map fun number : Nat => mode.first + number := by
  cases mode <;> rfl

end FilterMode

/-- A tap counted from the first one. -/
theorem AxisCoord.tapIndex?_first_add (axis : AxisCoord) (mode : FilterMode) (number : Nat) :
    axis.tapIndex? (mode.first + number) = axis.wrapped mode number := by
  unfold tapIndex? tap wrapped saturated
  rw [Int.add_assoc]

/-- Every path lies inside the axes. -/
theorem FilterMode.inside_of_mem_paths {mode : FilterMode} {axes : List AxisCoord}
    (hsizes : ∀ size ∈ AxisCoord.sizes axes, 0 < size) {path : List Tap}
    (hpath : path ∈ mode.paths axes) : Inside (AxisCoord.sizes axes) (path.map Tap.index) := by
  induction axes generalizing path with
  | nil =>
    obtain rfl := List.mem_singleton.mp hpath
    exact .nil
  | cons axis inner ih =>
    obtain ⟨tap, htap, hrest⟩ := List.mem_flatMap.mp hpath
    obtain ⟨rest, hmem, rfl⟩ := List.mem_map.mp hrest
    obtain ⟨number, -, hindex⟩ := List.mem_filterMap.mp htap
    obtain ⟨index, hwrap, rfl⟩ := Option.map_eq_some_iff.mp hindex
    exact .cons (AddressMode.wrap_range (hsizes axis.size List.mem_cons_self) hwrap)
      (ih (fun size h => hsizes size (List.mem_cons_of_mem _ h)) hmem)

/-! ## Records -/

section

variable {ε σ α β κ : Type}

/-- What a fetch was asked for, and what it answered. -/
abbrev FetchRecord (ε : Type) : Type := List Int × Except ε Color

/-- A fetch that may fail, with a state that survives it. -/
abbrev Fetching (ε σ : Type) : Type → Type := ExceptT ε (StateM σ)

/-- A fetch that also records what it is asked for and what it answers. -/
def recorded (fetch : List Int → Fetching ε σ Color) (indices : List Int) :
    Fetching ε (List (FetchRecord ε) × σ) Color :=
  ExceptT.mk fun (log, s) =>
    let (answer, s') := (fetch indices).run.run s
    (answer, log ++ [(indices, answer)], s')

/-- The records of fetches that are answered. -/
def answered (ε : Type) (call : κ → List Int) (answer : κ → Color) (keys : List κ) :
    List (FetchRecord ε) :=
  keys.map fun key => (call key, .ok (answer key))

/-- `x` makes the calls of the keys in order until one fails, and then fails with it; if
none does, its result is the value of the answers.  Without a record it is `y`. -/
def Calls (x : Fetching ε (List (FetchRecord ε) × σ) α) (y : Fetching ε σ α) (keys : List κ)
    (call : κ → List Int) (value : (κ → Color) → α) : Prop :=
  ∀ log s,
    (∃ answer s',
      x.run.run (log, s) = (.ok (value answer), log ++ answered ε call answer keys, s') ∧
      y.run.run s = (.ok (value answer), s')) ∨
    (∃ front key back answer fault s', keys = front ++ key :: back ∧
      x.run.run (log, s)
        = (.error fault, log ++ (answered ε call answer front ++ [(call key, .error fault)]), s') ∧
      y.run.run s = (.error fault, s'))

variable {x : Fetching ε (List (FetchRecord ε) × σ) α} {y : Fetching ε σ α} {keys keys' : List κ}
  {call : κ → List Int} {value : (κ → Color) → α}

/-- The answers to keys behind others come behind theirs. -/
theorem answered_append (call : κ → List Int) (answer : κ → Color) (keys keys' : List κ) :
    answered ε call answer (keys ++ keys')
      = answered ε call answer keys ++ answered ε call answer keys' := List.map_append

/-- The same answers are recorded alike. -/
theorem answered_congr {answer answer' : κ → Color}
    (hsame : ∀ key ∈ keys, answer' key = answer key) :
    answered ε call answer' keys = answered ε call answer keys :=
  List.map_congr_left fun key hkey => by rw [hsame key hkey]

/-- An answer makes no call. -/
theorem Calls.pure (a : α) (call : κ → List Int) :
    Calls (Pure.pure a : Fetching ε (List (FetchRecord ε) × σ) α) (Pure.pure a : Fetching ε σ α)
      [] call fun _ => a :=
  fun log s => .inl ⟨fun _ => Color.transparent, s,
    by rw [answered, List.map_nil, List.append_nil]; rfl, rfl⟩

/-- A fetch is one call, and its answer is what was fetched. -/
theorem Calls.fetch (fetch : List Int → Fetching ε σ Color) (key : κ) (call : κ → List Int) :
    Calls (recorded fetch (call key)) (fetch (call key)) [key] call fun answer => answer key := by
  intro log s
  rcases hanswer : (fetch (call key)).run.run s with ⟨answer, s'⟩
  have hrecorded : (recorded fetch (call key)).run.run (log, s)
      = (answer, log ++ [(call key, answer)], s') := by
    change (let (answer, s') := (fetch (call key)).run.run s
      (answer, log ++ [(call key, answer)], s')) = _
    rw [hanswer]
  cases answer with
  | ok color => exact .inl ⟨fun _ => color, s', hrecorded, rfl⟩
  | error fault =>
    exact .inr ⟨[], key, [], fun _ => Color.transparent, fault, s', rfl, hrecorded, rfl⟩

/-- After a success the rest runs on. -/
theorem run_bind_ok {x : Fetching ε σ α} {next : α → Fetching ε σ β} {a : α} {s s' : σ}
    (hfirst : x.run.run s = (.ok a, s')) : (x >>= next).run.run s = (next a).run.run s' := by
  rw [ExceptT.run_bind, StateT.run_bind, hfirst]
  rfl

/-- After a fault nothing runs. -/
theorem run_bind_error {x : Fetching ε σ α} {next : α → Fetching ε σ β} {fault : ε} {s s' : σ}
    (hfirst : x.run.run s = (.error fault, s')) :
    (x >>= next).run.run s = (.error fault, s') := by
  rw [ExceptT.run_bind, StateT.run_bind, hfirst]
  rfl

/-- A pure step behind the calls. -/
theorem Calls.map (hcalls : Calls x y keys call value) (f : α → β) :
    Calls (x >>= fun a => Pure.pure (f a)) (y >>= fun a => Pure.pure (f a)) keys call
      fun answer => f (value answer) := by
  intro log s
  obtain ⟨answer, s', hx, hy⟩ | ⟨front, key, back, answer, fault, s', hkeys, hx, hy⟩ := hcalls log s
  · exact .inl ⟨answer, s', run_bind_ok hx, run_bind_ok hy⟩
  · exact .inr ⟨front, key, back, answer, fault, s', hkeys, run_bind_error hx, run_bind_error hy⟩

/-- Calls after calls, if the answers to both fit together. -/
theorem Calls.cons {xs : Fetching ε (List (FetchRecord ε) × σ) (List α)}
    {ys : Fetching ε σ (List α)} {value' : (κ → Color) → List α}
    (hcalls : Calls x y keys call value) (hcalls' : Calls xs ys keys' call value')
    (hmerge : ∀ a a' : κ → Color, ∃ answer : κ → Color,
      (∀ key ∈ keys, answer key = a key) ∧ value answer = value a ∧
      (∀ key ∈ keys', answer key = a' key) ∧ value' answer = value' a') :
    Calls (x >>= fun a => xs >>= fun as => Pure.pure (a :: as))
      (y >>= fun a => ys >>= fun as => Pure.pure (a :: as))
      (keys ++ keys') call fun answer => value answer :: value' answer := by
  intro log s
  obtain ⟨a, s', hx, hy⟩ | ⟨front, key, back, a, fault, s', rfl, hx, hy⟩ := hcalls log s
  · obtain ⟨a', s'', hxs, hys⟩ | ⟨front, key, back, a', fault, s'', rfl, hxs, hys⟩ :=
      hcalls'.map (value a :: ·) (log ++ answered ε call a keys) s'
    · obtain ⟨answer, hkeys, hvalue, hkeys', hvalue'⟩ := hmerge a a'
      refine .inl ⟨answer, s'', ?_, ?_⟩
      · simp only [run_bind_ok hx, hxs, hvalue, hvalue', answered_append, answered_congr hkeys,
          answered_congr hkeys', List.append_assoc]
      · simp only [run_bind_ok hy, hys, hvalue, hvalue']
    · obtain ⟨answer, hkeys, -, hkeys', -⟩ := hmerge a a'
      refine .inr ⟨keys ++ front, key, back, answer, fault, s'', (List.append_assoc ..).symm, ?_,
        (run_bind_ok hy).trans hys⟩
      rw [run_bind_ok hx, hxs, answered_append, answered_congr hkeys,
        answered_congr fun key hmem => hkeys' key (List.mem_append_left _ hmem)]
      simp only [List.append_assoc]
  · refine .inr ⟨front, key, back ++ keys', a, fault, s', ?_, run_bind_error hx, run_bind_error hy⟩
    rw [List.append_assoc, List.cons_append]

/-- Calls under other keys. -/
theorem Calls.rekey {κ' : Type} {call : κ' → List Int} (e : κ → κ') (back : κ' → κ)
    (hback : ∀ key, back (e key) = key) (hcalls : Calls x y keys (call ∘ e) value) :
    Calls x y (keys.map e) call fun answer => value (answer ∘ e) := by
  have hanswered : ∀ (answer : κ → Color) (keys : List κ),
      answered ε call (answer ∘ back) (keys.map e) = answered ε (call ∘ e) answer keys := by
    intro answer keys
    unfold answered
    rw [List.map_map]
    refine List.map_congr_left fun key _ => ?_
    simp only [Function.comp_apply, hback]
  have hvalue : ∀ answer : κ → Color, value ((answer ∘ back) ∘ e) = value answer := fun answer =>
    congrArg value (funext fun key => congrArg answer (hback key))
  intro log s
  obtain ⟨answer, s', hx, hy⟩ | ⟨front, key, rest, answer, fault, s', rfl, hx, hy⟩ := hcalls log s
  · refine .inl ⟨answer ∘ back, s', ?_, ?_⟩
    · simp only [hx, hanswered, hvalue]
    · simp only [hy, hvalue]
  · refine .inr ⟨front.map e, e key, rest.map e, answer ∘ back, fault, s', ?_, ?_, hy⟩
    · rw [List.map_append, List.map_cons]
    · rw [hx, hanswered]
      rfl

/-! ## Filters -/

/-- The paths that start with a tap. -/
def AxisCoord.pathsFrom (axis : AxisCoord) (mode : FilterMode) (inner : List AxisCoord)
    (number : Nat) : List (List Tap) :=
  match axis.wrapped mode number with
  | some index => (mode.paths inner).map (⟨number, index⟩ :: ·)
  | none => []

/-- What a tap contributes. -/
def AxisCoord.tapValue (axis : AxisCoord) (mode : FilterMode) (border : Color)
    (inner : List AxisCoord) (number : Nat) (answer : List Tap → Color) : Color :=
  match axis.wrapped mode number with
  | some index => mode.foldTaps border inner fun path => answer (⟨number, index⟩ :: path)
  | none => border

/-- A path from a tap starts with the tap. -/
theorem AxisCoord.number_of_mem_pathsFrom {axis : AxisCoord} {mode : FilterMode}
    {inner : List AxisCoord} {number : Nat} {path : List Tap}
    (hpath : path ∈ axis.pathsFrom mode inner number) :
    path.head?.map Tap.number = some number := by
  unfold pathsFrom at hpath
  cases hwrap : axis.wrapped mode number with
  | none =>
    rw [hwrap] at hpath
    cases hpath
  | some index =>
    rw [hwrap] at hpath
    obtain ⟨rest, -, rfl⟩ := List.mem_map.mp hpath
    rfl

/-- What a tap contributes follows from the answers of its own paths. -/
theorem AxisCoord.tapValue_congr (axis : AxisCoord) {mode : FilterMode} {border : Color}
    {inner : List AxisCoord} {number : Nat} {answer answer' : List Tap → Color}
    (hsame : ∀ index path, answer' (⟨number, index⟩ :: path) = answer (⟨number, index⟩ :: path)) :
    axis.tapValue mode border inner number answer'
      = axis.tapValue mode border inner number answer := by
  unfold tapValue
  simp only [hsame]

/-- The paths of the first axis come tap by tap. -/
theorem FilterMode.paths_cons (mode : FilterMode) (axis : AxisCoord) (inner : List AxisCoord) :
    mode.paths (axis :: inner)
      = (List.range mode.tapCount).flatMap (axis.pathsFrom mode inner) := by
  have hrow : ∀ numbers : List Nat,
      (numbers.filterMap fun number => (axis.wrapped mode number).map (Tap.mk number)).flatMap
          (fun tap => (mode.paths inner).map (tap :: ·))
        = numbers.flatMap (axis.pathsFrom mode inner) := by
    intro numbers
    induction numbers with
    | nil => rfl
    | cons number rest ih =>
      rw [List.flatMap_cons, ← ih, AxisCoord.pathsFrom]
      cases hwrap : axis.wrapped mode number with
      | none => rw [List.filterMap_cons_none (by rw [hwrap]; rfl), List.nil_append]
      | some index =>
        rw [List.filterMap_cons_some (b := ⟨number, index⟩) (by rw [hwrap]; rfl), List.flatMap_cons]
  exact hrow _

variable {mode : FilterMode} {border : Color} {fetch : List Int → Fetching ε σ Color}

/-- What filtering does at a tap of an axis. -/
def AxisCoord.visit {m : Type → Type} [Monad m] (axis : AxisCoord) (mode : FilterMode)
    (border : Color) (fetch : List Int → m Color) (inner : List AxisCoord) (chosen : List Int)
    (number : Nat) : m Color :=
  match axis.wrapped mode number with
  | some index => filter mode border fetch inner (chosen ++ [index])
  | none => Pure.pure border

/-- A filter visits the taps of the first axis and combines what they give. -/
theorem filter_cons {m : Type → Type} [Monad m] [LawfulMonad m] (mode : FilterMode)
    (border : Color) (fetch : List Int → m Color) (axis : AxisCoord) (inner : List AxisCoord)
    (chosen : List Int) :
    filter mode border fetch (axis :: inner) chosen
      = (List.range mode.tapCount).mapM (axis.visit mode border fetch inner chosen) >>= fun taps =>
          Pure.pure (mode.combine axis.frac taps) := by
  have hvisit : ∀ number : Nat, (match axis.tapIndex? (mode.first + number) with
      | some index => filter mode border fetch inner (chosen ++ [index])
      | none => Pure.pure border) = axis.visit mode border fetch inner chosen number := by
    intro number
    rw [AxisCoord.tapIndex?_first_add]
    rfl
  unfold filter
  rw [FilterMode.offsets_eq, List.mapM_map]
  exact congrArg (fun visit => List.mapM visit (List.range mode.tapCount) >>= fun taps =>
    Pure.pure (mode.combine axis.frac taps)) (funext hvisit)

/-- The taps of an axis one after the other. -/
theorem calls_row {axis : AxisCoord} {inner : List AxisCoord} {chosen : List Int}
    (hinner : ∀ chosen : List Int, Calls (filter mode border (recorded fetch) inner chosen)
      (filter mode border fetch inner chosen) (mode.paths inner)
      (fun path => chosen ++ path.map Tap.index) (mode.foldTaps border inner))
    {numbers : List Nat} (hnodup : numbers.Nodup) :
    Calls (numbers.mapM (axis.visit mode border (recorded fetch) inner chosen))
      (numbers.mapM (axis.visit mode border fetch inner chosen))
      (numbers.flatMap (axis.pathsFrom mode inner))
      (fun path => chosen ++ path.map Tap.index)
      (fun answer => numbers.map fun number => axis.tapValue mode border inner number answer) := by
  have htap : ∀ number, Calls (axis.visit mode border (recorded fetch) inner chosen number)
      (axis.visit mode border fetch inner chosen number) (axis.pathsFrom mode inner number)
      (fun path => chosen ++ path.map Tap.index) (axis.tapValue mode border inner number) := by
    intro number
    unfold AxisCoord.visit AxisCoord.pathsFrom AxisCoord.tapValue
    cases axis.wrapped mode number with
    | none => exact .pure border _
    | some index =>
      refine Calls.rekey (Tap.mk number index :: ·) List.tail (fun _ => rfl) ?_
      have hcall : (fun path : List Tap => chosen ++ path.map Tap.index) ∘
        (Tap.mk number index :: ·)
          = fun path => chosen ++ [index] ++ path.map Tap.index :=
        funext fun path => (List.append_assoc chosen [index] (path.map Tap.index)).symm
      rw [hcall]
      exact hinner (chosen ++ [index])
  induction numbers with
  | nil => exact .pure [] _
  | cons number rest ih =>
    obtain ⟨hnew, hrest⟩ := List.nodup_cons.mp hnodup
    rw [List.mapM_cons, List.mapM_cons, List.flatMap_cons]
    refine (htap number).cons (ih hrest) fun a a' => ?_
    -- the first tap of a path tells which of the two answered
    refine ⟨fun path => if path.head?.map Tap.number = some number then a path else a' path,
      fun path hpath => ?_, ?_, fun path hpath => ?_, ?_⟩
    · exact if_pos (AxisCoord.number_of_mem_pathsFrom hpath)
    · exact axis.tapValue_congr fun index path => if_pos rfl
    · obtain ⟨other, hother, hpath⟩ := List.mem_flatMap.mp hpath
      refine if_neg fun hnumber => hnew ?_
      rw [AxisCoord.number_of_mem_pathsFrom hpath] at hnumber
      exact Option.some.inj hnumber ▸ hother
    · refine List.map_congr_left fun other hother => axis.tapValue_congr fun index path => ?_
      refine if_neg fun hnumber => hnew ?_
      have hsame : other = number := Option.some.inj hnumber
      exact hsame ▸ hother

/-- **A filter makes the calls of its paths** and folds the answers. -/
theorem calls_filter (axes : List AxisCoord) (chosen : List Int) :
    Calls (filter mode border (recorded fetch) axes chosen) (filter mode border fetch axes chosen)
      (mode.paths axes) (fun path => chosen ++ path.map Tap.index) (mode.foldTaps border axes) := by
  induction axes generalizing chosen with
  | nil =>
    have hcall : chosen ++ ([] : List Tap).map Tap.index = chosen := List.append_nil _
    have hfetch := Calls.fetch fetch ([] : List Tap) fun path => chosen ++ path.map Tap.index
    rw [hcall] at hfetch
    exact hfetch
  | cons axis inner ih =>
    rw [filter_cons, filter_cons, FilterMode.paths_cons]
    exact (calls_row ih List.nodup_range).map (mode.combine axis.frac)

/-- What filtering along some axes does with a fetch. -/
structure Traced (mode : FilterMode) (border : Color) (fetch : List Int → Fetching ε σ Color)
    (axes : List AxisCoord) (s : σ) : Prop where
  /-- Only indices of the axes are fetched. -/
  inside : ∀ path ∈ mode.paths axes, Inside (AxisCoord.sizes axes) (path.map Tap.index)
  /-- The paths are fetched in order, up to the first fault. -/
  fetches :
    let run := (filter mode border (recorded fetch) axes []).run.run ([], s)
    (∃ answer : List Tap → Color, run.1 = .ok (mode.foldTaps border axes answer) ∧
        run.2.1 = (mode.paths axes).map fun path => (path.map Tap.index, .ok (answer path))) ∨
      (∃ (front : List (List Tap)) (path : List Tap) (back : List (List Tap))
        (answer : List Tap → Color) (fault : ε), mode.paths axes = front ++ path :: back ∧
        run.1 = .error fault ∧
        run.2.1 = (front.map fun path => (path.map Tap.index, .ok (answer path)))
          ++ [(path.map Tap.index, .error fault)])
  /-- The record is all that recording adds. -/
  unrecorded :
    let run := (filter mode border (recorded fetch) axes []).run.run ([], s)
    (filter mode border fetch axes []).run.run s = (run.1, run.2.2)

/-- **A filter fetches the paths of its taps**, in lexicographic order and until a fetch
fails, and folds their answers. -/
theorem filter_traced (mode : FilterMode) (border : Color) (fetch : List Int → Fetching ε σ Color)
    {axes : List AxisCoord} (hsizes : ∀ size ∈ AxisCoord.sizes axes, 0 < size) (s : σ) :
    Traced mode border fetch axes s := by
  have hcalls : Calls (filter mode border (recorded fetch) axes [])
    (filter mode border fetch axes [])
      (mode.paths axes) (fun path => path.map Tap.index) (mode.foldTaps border axes) :=
    calls_filter axes []
  refine ⟨fun path => FilterMode.inside_of_mem_paths hsizes, ?_, ?_⟩
  · obtain ⟨answer, s', hx, -⟩ | ⟨front, path, back, answer, fault, s', hpaths, hx, -⟩ :=
      hcalls [] s
    · rw [hx]
      exact .inl ⟨answer, rfl, rfl⟩
    · rw [hx]
      exact .inr ⟨front, path, back, answer, fault, hpaths, rfl, rfl⟩
  · obtain ⟨answer, s', hx, hy⟩ | ⟨front, path, back, answer, fault, s', -, hx, hy⟩ := hcalls [] s
    · rw [hx, hy]
    · rw [hx, hy]

end

/-- A fetch that is answered as often as the state allows. -/
def rationed (_ : List Int) : Fetching Unit Nat Color := do
  match ← getThe Nat with
  | 0 => throw ()
  | left + 1 =>
    set left
    return Color.transparent

/-- An axis with a tap outside its border, and one that goes around its end. -/
def edgeAxes : List AxisCoord :=
  [⟨-1, Binary32.half, 4, .clampToBorder⟩, ⟨3, Binary32.half, 4, .wrapAround⟩]

/-- The tap outside the border is not fetched, and the second fetch fails. -/
theorem filter_traced_edgeAxes :
    (∀ size ∈ AxisCoord.sizes edgeAxes, 0 < size) ∧
      Traced .linear Color.transparent rationed edgeAxes 1 ∧
      ((filter .linear Color.transparent (recorded rationed) edgeAxes []).run.run ([], 1)).2.1
        = [([0, 3], .ok Color.transparent), ([0, 0], .error ())] :=
  ⟨by decide, filter_traced _ _ _ (by decide) _, rfl⟩

end PixelPipeline
