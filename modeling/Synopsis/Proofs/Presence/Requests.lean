import Synopsis.Proofs.Folds

/-! Histories of membership filters: the requests that a filter serves, and what its answers say about
the copies it holds. -/
namespace Synopsis.Presence

/-- What a filter can be asked to do. -/
inductive Request where
  | insert (data : ByteArray)
  | contains (data : ByteArray)
  | containsThenInsert (data : ByteArray)
  | containsThenErase (data : ByteArray)
  | clear
  deriving DecidableEq

/-- The item that a request asks to insert. -/
def offer? : Request → Option ByteArray
  | .insert data => some data
  | .containsThenInsert data => some data
  | _ => none

/-- The items that requests ask to insert. -/
def offered (requests : List Request) : Multiset ByteArray := requests.filterMap offer?

theorem offered_append (before after : List Request) :
    offered (before ++ after) = offered before + offered after := by
  rw [offered, List.filterMap_append, ← Multiset.coe_add]
  rfl

/-- Whether the filter contained the item, where the request asks for it. -/
abbrev Answer := Outcome (Option Bool)

abbrev Event := Request × Answer

/-- Serves requests in order and logs the answers. -/
def serve {F : Type} (step : F → Request → Answer × F) : F → List Request → List Event × F
  | f, [] => ([], f)
  | f, request :: rest =>
    let (answer, f) := step f request
    let (log, f) := serve step f rest
    ((request, answer) :: log, f)

/-- A failed operation leaves the filter as it was. -/
def settle {F : Type} (f : F) : Outcome (Option Bool × F) → Answer × F
  | .ok (answer, g) => (.ok answer, g)
  | .error failure => (.error failure, f)

theorem settle_failed {F : Type} {f : F} {outcome : Outcome (Option Bool × F)} {failure : Failure}
    (failed : (settle f outcome).1 = .error failure) :
    outcome = .error failure ∧ (settle f outcome).2 = f := by
  cases outcome with
  | ok _ => cases failed
  | error _ =>
    cases failed
    exact ⟨rfl, rfl⟩

/-- The operations of a filter from which items can be erased. -/
structure Operations (F : Type) where
  insert : F → ByteArray → Outcome F
  contains : F → ByteArray → Outcome Bool
  containsThenInsert : F → ByteArray → Outcome (Bool × F)
  containsThenErase : F → ByteArray → Outcome (Bool × F)
  clear : F → F

/-- The operations of a filter that gives no item up: its erasures find nothing. -/
def Operations.permanent {F : Type} (insert : F → ByteArray → Outcome F)
    (contains : F → ByteArray → Outcome Bool) (containsThenInsert : F → ByteArray → Outcome (Bool × F))
    (clear : F → F) : Operations F :=
  ⟨insert, contains, containsThenInsert, fun f _ => .ok (false, f), clear⟩

def Operations.step {F : Type} (o : Operations F) (f : F) : Request → Answer × F
  | .insert data => settle f ((o.insert f data).map fun g => (none, g))
  | .contains data => ((o.contains f data).map some, f)
  | .containsThenInsert data =>
    settle f ((o.containsThenInsert f data).map fun (member, g) => (some member, g))
  | .containsThenErase data =>
    settle f ((o.containsThenErase f data).map fun (member, g) => (some member, g))
  | .clear => (.ok none, o.clear f)

/-- Inserting under a test leaves what the insertion leaves and answers as the test before it. -/
def Operations.Fused {F : Type} (o : Operations F) (f : F) : Prop :=
  ∀ data, Fusion (o.contains f data) (o.insert f data) (o.containsThenInsert f data)

theorem Operations.Fused.insert_eq_ok {F : Type} {o : Operations F} {f g : F} {data : ByteArray} {member : Bool}
    (h : o.Fused f) (run : o.containsThenInsert f data = .ok (member, g)) : o.insert f data = .ok g :=
  (h data).change_eq_ok run

section Kept
variable {F β : Type} {P : F → Prop} {v : F → β}

theorem settle_keeps {f : F} {outcome : Outcome (Option Bool × F)} (before : P f)
    (after : ∀ answer g, outcome = .ok (answer, g) → P g) : P (settle f outcome).2 := by
  cases outcome with
  | ok result => exact after result.1 result.2 rfl
  | error _ => exact before

theorem settle_kept {f : F} {outcome : Outcome (Option Bool × F)}
    (kept : ∀ answer g, outcome = .ok (answer, g) → v g = v f) : v (settle f outcome).2 = v f :=
  settle_keeps (P := fun g => v g = v f) rfl kept

/-- What every operation that succeeds keeps, serving a request does, if an insertion under a test is an insertion. -/
theorem Operations.step_keeps (o : Operations F)
    (insert : ∀ f data g, o.insert f data = .ok g → P f → P g)
    (inserts : ∀ f data member g, o.containsThenInsert f data = .ok (member, g) → o.insert f data = .ok g)
    (containsThenErase : ∀ f data member g, o.containsThenErase f data = .ok (member, g) → P f → P g)
    (clear : ∀ f, P f → P (o.clear f)) (f : F) (request : Request) (before : P f) : P (o.step f request).2 := by
  have tested {op : Outcome (Bool × F)} (kept : ∀ member g, op = .ok (member, g) → P f → P g) :
      P (settle f (op.map fun (member, g) => (some member, g))).2 := by
    cases op with
    | ok result => exact kept result.1 result.2 rfl before
    | error _ => exact before
  cases request with
  | insert data =>
    refine settle_keeps before fun answer g inserted => ?_
    obtain ⟨_, run, same⟩ := map_eq_ok.mp inserted
    cases same
    exact insert f data _ run before
  | contains data => exact before
  | containsThenInsert data => exact tested fun member g run => insert f data g (inserts f data member g run)
  | containsThenErase data => exact tested (containsThenErase f data)
  | clear => exact clear f before

/-- What every operation that succeeds leaves alone, serving a request does. -/
theorem Operations.step_kept (o : Operations F)
    (insert : ∀ f data g, o.insert f data = .ok g → v g = v f)
    (inserts : ∀ f data member g, o.containsThenInsert f data = .ok (member, g) → o.insert f data = .ok g)
    (containsThenErase : ∀ f data member g, o.containsThenErase f data = .ok (member, g) → v g = v f)
    (clear : ∀ f, v (o.clear f) = v f) (f : F) (request : Request) : v (o.step f request).2 = v f :=
  o.step_keeps (P := fun g => v g = v f) (fun _ _ _ run same => (insert _ _ _ run).trans same) inserts
    (fun _ _ _ _ run same => (containsThenErase _ _ _ _ run).trans same) (fun _ same => (clear _).trans same) f
    request rfl

end Kept

section Serve
variable {F G : Type} {step : F → Request → Answer × F} {spec : G → Request → Answer × G}

theorem serve_append (f : F) (before after : List Request) :
    serve step f (before ++ after) =
      ((serve step f before).1 ++ (serve step (serve step f before).2 after).1,
        (serve step (serve step f before).2 after).2) := by
  induction before generalizing f with
  | nil => rfl
  | cons request rest ih => simp only [List.cons_append, serve, ih]

theorem mem_of_mem_serve {f : F} {requests : List Request} {event : Event}
    (logged : event ∈ (serve step f requests).1) : event.1 ∈ requests := by
  induction requests generalizing f with
  | nil => cases logged
  | cons request rest ih =>
    rcases List.mem_cons.mp logged with rfl | later
    · exact List.mem_cons_self
    · exact List.mem_cons_of_mem _ (ih later)

/-- Two filters whose single steps agree, while the events are admissible, agree on whole runs. -/
theorem serve_simulates_events (Admissible : Event → Prop) {R : F → G → Prop}
    (agree : ∀ f g request, R f g → Admissible (request, (step f request).1) →
      (step f request).1 = (spec g request).1 ∧ R (step f request).2 (spec g request).2)
    {f : F} {g : G} (start : R f g) (requests : List Request)
    (admissible : ∀ event ∈ (serve step f requests).1, Admissible event) :
    (serve step f requests).1 = (serve spec g requests).1 ∧
      R (serve step f requests).2 (serve spec g requests).2 := by
  induction requests generalizing f g with
  | nil => exact ⟨rfl, start⟩
  | cons request rest ih =>
    simp only [serve, List.forall_mem_cons] at admissible
    obtain ⟨same, next⟩ := agree f g request start admissible.1
    obtain ⟨logs, final⟩ := ih next admissible.2
    exact ⟨by simp only [serve, same, logs], final⟩

/-- What is admissible depends on the answers. -/
theorem serve_simulates {Admissible : Answer → Prop} {R : F → G → Prop}
    (agree : ∀ f g request, R f g → Admissible (step f request).1 →
      (step f request).1 = (spec g request).1 ∧ R (step f request).2 (spec g request).2)
    {f : F} {g : G} (start : R f g) (requests : List Request)
    (admissible : ∀ event ∈ (serve step f requests).1, Admissible event.2) :
    (serve step f requests).1 = (serve spec g requests).1 ∧
      R (serve step f requests).2 (serve spec g requests).2 :=
  serve_simulates_events (fun event => Admissible event.2) agree start requests admissible

/-- What is admissible depends on the requests. -/
theorem serve_simulates_of_requests {Admissible : Request → Prop} {R : F → G → Prop}
    (agree : ∀ f g request, R f g → Admissible request →
      (step f request).1 = (spec g request).1 ∧ R (step f request).2 (spec g request).2)
    {f : F} {g : G} (start : R f g) (requests : List Request)
    (admissible : ∀ request ∈ requests, Admissible request) :
    (serve step f requests).1 = (serve spec g requests).1 ∧
      R (serve step f requests).2 (serve spec g requests).2 :=
  serve_simulates_events (fun event => Admissible event.1) agree start requests
    fun event logged => admissible event.1 (mem_of_mem_serve logged)

/-- What holds of the empty log and survives one more event holds of every run. -/
theorem serve_induction {P : List Event → F → Prop} {f : F} (start : P [] f)
    (next : ∀ log g request, P log g →
      P (log ++ [(request, (step g request).1)]) (step g request).2)
    (requests : List Request) : P (serve step f requests).1 (serve step f requests).2 := by
  induction requests using List.reverseRecOn with
  | nil => exact start
  | append_singleton before request ih =>
    rw [serve_append]
    exact next _ _ request ih

end Serve

/-- The events after the last clearing. -/
def sinceClear (log : List Event) : List Event := log.rtakeWhile fun event => event.1 ≠ .clear

theorem sinceClear_concat (log : List Event) (event : Event) :
    sinceClear (log ++ [event]) = if event.1 = .clear then [] else sinceClear log ++ [event] := by
  rw [sinceClear, List.rtakeWhile_concat]
  by_cases h : event.1 = .clear <;> simp [h, sinceClear]

/-- The held copies after one more event. `repeats` tells whether an item that the filter contains
already is stored once more when it is inserted under a test. -/
def retain (repeats : Bool) (held : Multiset ByteArray) : Event → Multiset ByteArray
  | (.insert data, .ok _) => data ::ₘ held
  | (.containsThenInsert data, .ok (some member)) =>
    if member && !repeats then held else data ::ₘ held
  | (.containsThenErase data, .ok (some true)) => held.erase data
  | (.clear, .ok _) => 0
  | _ => held

/-- The copies inserted and not taken out again, as the answers tell. -/
def live (repeats : Bool) (log : List Event) : Multiset ByteArray := log.foldl (retain repeats) 0

/-- Every erasure that succeeds is of an item that is still held. -/
def Sparing (repeats : Bool) (log : List Event) : Prop :=
  ∀ before data, before ++ [(.containsThenErase data, .ok (some true))] <+: log →
    data ∈ live repeats before

theorem live_concat (repeats : Bool) (log : List Event) (event : Event) :
    live repeats (log ++ [event]) = retain repeats (live repeats log) event := by
  rw [live, List.foldl_append]
  rfl

theorem Sparing.before {repeats : Bool} {before after : List Event}
    (h : Sparing repeats (before ++ after)) : Sparing repeats before :=
  fun _ _ shorter => h _ _ (shorter.trans (List.prefix_append _ _))

theorem Sparing.nil (repeats : Bool) : Sparing repeats [] :=
  fun _ _ short => absurd (List.prefix_nil.mp short) (by simp)

theorem Sparing.concat {repeats : Bool} {log : List Event} {event : Event} (h : Sparing repeats log)
    (last : ∀ data, event = (.containsThenErase data, .ok (some true)) → data ∈ live repeats log) :
    Sparing repeats (log ++ [event]) := by
  intro before data short
  rcases List.prefix_concat_iff.mp short with same | shorter
  · obtain ⟨rfl, ends⟩ := List.append_inj' same rfl
    exact last data (List.singleton_inj.mp ends).symm
  · exact h before data shorter

theorem Sparing.last {repeats : Bool} {log : List Event} {data : ByteArray}
    (h : Sparing repeats (log ++ [(.containsThenErase data, .ok (some true))])) :
    data ∈ live repeats log := h _ _ List.prefix_rfl

/-- The number of hash positions of the held copies that hit a cell, each as often as it does. -/
def load (positions : ByteArray → List Nat) (held : Multiset ByteArray) (cell : Nat) : Nat :=
  (held.map fun data => (positions data).count cell).sum

theorem load_cons (positions : ByteArray → List Nat) (held : Multiset ByteArray) (data : ByteArray) :
    load positions (data ::ₘ held) =
      fun cell => load positions held cell + (positions data).count cell := by
  funext cell
  simp only [load, Multiset.map_cons, Multiset.sum_cons, Nat.add_comm]

theorem load_erase (positions : ByteArray → List Nat) {held : Multiset ByteArray} {data : ByteArray}
    (member : data ∈ held) :
    load positions (held.erase data) =
      fun cell => load positions held cell - (positions data).count cell := by
  funext cell
  have whole := congrFun (load_cons positions (held.erase data) data) cell
  rw [Multiset.cons_erase member] at whole
  omega

theorem count_le_load (positions : ByteArray → List Nat) {held : Multiset ByteArray}
    {data : ByteArray} (member : data ∈ held) (cell : Nat) :
    (positions data).count cell ≤ load positions held cell := by
  have whole := congrFun (load_cons positions (held.erase data) data) cell
  rw [Multiset.cons_erase member] at whole
  omega

end Synopsis.Presence
