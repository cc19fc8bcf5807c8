import Synopsis.Proofs.Folds
import Synopsis.Proofs.Presence.Requests

/-! Filters that are unions of what their items hit. Such a filter answers as one that keeps the items and
looks whether what they hit together covers the item asked for. So filters with the same hits give the same
answers, and what they hold depends on the set of items only. -/
namespace Synopsis.Presence

/-- The items inserted since the last clearing, in order. -/
def added (requests : List Request) : List ByteArray :=
  (requests.rtakeWhile fun request => request ≠ .clear).filterMap offer?

private theorem offers_singleton (request : Request) :
    [request].filterMap offer? = (offer? request).toList := by
  cases h : offer? request <;> simp [h]

theorem added_concat (requests : List Request) (request : Request) : added (requests ++ [request]) =
    if request = .clear then [] else added requests ++ (offer? request).toList := by
  rw [added, List.rtakeWhile_concat]
  by_cases cleared : request = .clear
  · simp [cleared]
  · simp [cleared, added, List.filterMap_append, ← offers_singleton]

theorem added_append (requests : List Request) {more : List Request} (going : .clear ∉ more) :
    added (requests ++ more) = added requests ++ more.filterMap offer? := by
  induction more using List.reverseRecOn with
  | nil => simp
  | append_singleton more request ih =>
    obtain ⟨before, last⟩ := not_or.mp (mt List.mem_append.mpr going)
    have kept : request ≠ .clear := fun same => last (List.mem_singleton.mpr same.symm)
    rw [← List.append_assoc, added_concat, if_neg kept, ih before, List.filterMap_append, offers_singleton,
      List.append_assoc]

section Hits
variable {ι : Type} [DecidableEq ι] (hits : ByteArray → Finset ι)

/-- What the items hit together. -/
def covered (items : List ByteArray) : Finset ι := items.toFinset.biUnion hits

variable {hits}

theorem mem_covered {items : List ByteArray} {i : ι} : i ∈ covered hits items ↔ ∃ item ∈ items, i ∈ hits item := by
  simp [covered]

theorem covered_concat (items : List ByteArray) (data : ByteArray) :
    covered hits (items ++ [data]) = covered hits items ∪ hits data := by
  ext i
  simp [mem_covered, or_and_right, exists_or]

theorem covered_congr {items others : List ByteArray} (same : ∀ data, data ∈ items ↔ data ∈ others) :
    covered hits items = covered hits others := by
  ext i
  simp [mem_covered, same]

theorem hits_subset {items : List ByteArray} {data : ByteArray} (member : data ∈ items) :
    hits data ⊆ covered hits items := fun _ hit => mem_covered.mpr ⟨data, member, hit⟩

theorem covered_mono {items more : List ByteArray} (within : items ⊆ more) :
    covered hits items ⊆ covered hits more := by
  intro i there
  obtain ⟨item, member, hit⟩ := mem_covered.mp there
  exact mem_covered.mpr ⟨item, within member, hit⟩

variable (hits)

/-- Whether the items cover all that an item hits. -/
def covers (items : List ByteArray) (data : ByteArray) : Bool := decide (hits data ⊆ covered hits items)

/-- The filter that keeps the items themselves. -/
def keeping : Operations (List ByteArray) :=
  .permanent (fun items data => .ok (items ++ [data])) (fun items data => .ok (covers hits items data))
    (fun items data => .ok (covers hits items data, items ++ [data])) fun _ => []

end Hits

/-- The operations go in parallel with those on lists of items. -/
structure Represents {ι F : Type} [DecidableEq ι] (hits : ByteArray → Finset ι) (o : Operations F)
    (R : List ByteArray → F → Prop) : Prop where
  insert : ∀ {items f}, R items f → ∀ data, ∃ g, o.insert f data = .ok g ∧ R (items ++ [data]) g
  contains : ∀ {items f}, R items f → ∀ data, o.contains f data = .ok (covers hits items data)
  fused : ∀ {items f}, R items f → o.Fused f
  clear : ∀ {items f}, R items f → R [] (o.clear f)

section Runs
variable {ι F : Type} [DecidableEq ι] {hits : ByteArray → Finset ι} {o : Operations F}
  {R : List ByteArray → F → Prop} {items : List ByteArray} {f start : F} {requests : List Request}

/-- An erasure takes part where it finds nothing in any filter. -/
def Idle (o : Operations F) (request : Request) : Prop :=
  ∀ data, request = .containsThenErase data → ∀ f, o.containsThenErase f data = .ok (false, f)

theorem idle_permanent {insert : F → ByteArray → Outcome F} {contains : F → ByteArray → Outcome Bool}
    {containsThenInsert : F → ByteArray → Outcome (Bool × F)} {clear : F → F} (request : Request) :
    Idle (.permanent insert contains containsThenInsert clear) request := fun _ _ _ => rfl

theorem Represents.step (h : Represents hits o R) (related : R items f) {request : Request} (idle : Idle o request) :
    (o.step f request).1 = ((keeping hits).step items request).1 ∧
      R ((keeping hits).step items request).2 (o.step f request).2 := by
  cases request with
  | insert data =>
    obtain ⟨g, run, next⟩ := h.insert related data
    simp only [Operations.step, run]
    exact ⟨rfl, next⟩
  | contains data =>
    simp only [Operations.step, h.contains related]
    exact ⟨rfl, related⟩
  | containsThenInsert data =>
    obtain ⟨g, run, next⟩ := h.insert related data
    simp only [Operations.step, (h.fused related data).eq_ok (h.contains related data) run]
    exact ⟨rfl, next⟩
  | containsThenErase data =>
    simp only [Operations.step, idle data rfl]
    exact ⟨rfl, related⟩
  | clear => exact ⟨rfl, h.clear related⟩

theorem keeping_run (hits : ByteArray → Finset ι) (requests : List Request) :
    (serve (keeping hits).step [] requests).2 = added requests := by
  induction requests using List.reverseRecOn with
  | nil => rfl
  | append_singleton before request ih =>
    rw [serve_append, added_concat]
    simp only [serve, ih]
    cases request with
    | insert data => rfl
    | contains data => simp [Operations.step, offer?]
    | containsThenInsert data => rfl
    | containsThenErase data => simp [Operations.step, keeping, Operations.permanent, settle, Except.map, offer?]
    | clear => rfl

theorem keeping_answers (hits : ByteArray → Finset ι) (items : List ByteArray) (requests : List Request) :
    ∀ event ∈ (serve (keeping hits).step items requests).1, ∃ answer, event.2 = .ok answer := by
  induction requests generalizing items with
  | nil => exact List.forall_mem_nil _
  | cons request rest ih =>
    simp only [serve, List.forall_mem_cons]
    refine ⟨?_, ih _⟩
    cases request with
    | insert data => exact ⟨_, rfl⟩
    | contains data => exact ⟨_, rfl⟩
    | containsThenInsert data => exact ⟨_, rfl⟩
    | containsThenErase data => exact ⟨_, rfl⟩
    | clear => exact ⟨_, rfl⟩

/-- A run answers as the run on lists of items and ends with the items added since the last clearing. -/
theorem Represents.run (h : Represents hits o R) (fresh : R [] start) (idle : ∀ request ∈ requests, Idle o request) :
    (serve o.step start requests).1 = (serve (keeping hits).step [] requests).1 ∧
      R (added requests) (serve o.step start requests).2 := by
  rw [← keeping_run hits requests]
  exact serve_simulates_of_requests (R := fun f items => R items f) (fun _ _ _ related => h.step related) fresh
    requests idle

/-- What a run leaves in a filter that is the union of what its items hit: an item is contained just if the items
added cover it, which further items do not undo, and what the filter holds depends on the set of items only. -/
structure HoldsUnion {γ : Type} (hits : ByteArray → Finset ι) (o : Operations F) (held : F → γ) (counted : F → Nat)
    (start : F) (requests : List Request) (f : F) : Prop where
  count : counted f = (added requests).length
  contains : ∀ data, o.contains f data = .ok (decide (hits data ⊆ covered hits (added requests)))
  member : ∀ data ∈ added requests, o.contains f data = .ok true
  lasting : ∀ more, .clear ∉ more → ∀ data, o.contains f data = .ok true →
    o.contains (serve o.step f more).2 data = .ok true
  content : ∀ others, (∀ data, data ∈ added others ↔ data ∈ added requests) →
    held (serve o.step start others).2 = held f

theorem Represents.holdsUnion {γ : Type} {held : F → γ} {counted : F → Nat} (h : Represents hits o R)
    (fresh : R [] start) (idle : ∀ request, Idle o request)
    (count : ∀ {items f}, R items f → counted f = items.length)
    (content : ∀ {items others f g}, R items f → R others g → covered hits items = covered hits others →
      held f = held g) (requests : List Request) :
    HoldsUnion hits o held counted start requests (serve o.step start requests).2 := by
  have ends (requests : List Request) : R (added requests) (serve o.step start requests).2 :=
    (h.run fresh fun request _ => idle request).2
  have test (requests : List Request) (data : ByteArray) := h.contains (ends requests) data
  constructor
  case count => exact count (ends requests)
  case contains => exact test requests
  case member =>
    intro data member
    rw [test]
    exact congrArg Except.ok (decide_eq_true (hits_subset member))
  case lasting =>
    intro more going data contained
    have onward : (serve o.step (serve o.step start requests).2 more).2 =
        (serve o.step start (requests ++ more)).2 := by
      rw [serve_append]
    rw [test] at contained
    have before : hits data ⊆ covered hits (added requests) := of_decide_eq_true (Except.ok.inj contained)
    rw [onward, test, added_append requests going]
    exact congrArg Except.ok (decide_eq_true (before.trans (covered_mono (List.subset_append_left ..))))
  case content =>
    intro others same
    exact content (ends others) (ends requests) (covered_congr same)

end Runs
end Synopsis.Presence
