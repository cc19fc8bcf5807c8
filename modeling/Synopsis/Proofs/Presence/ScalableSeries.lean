import Synopsis.Presence.ScalableBloom
import Synopsis.Proofs.Hashing.LeadingBytes
import Synopsis.Proofs.Presence.PartitionedBits
import Synopsis.Proofs.Presence.Requests

/-! How a scalable filter grows. Every filter of the series is a fresh filter with the parameters of its
number, fed with some of the items; all but the last stay as they are. -/
namespace Synopsis.Presence.ScalableBloom
open Numeric Hashing
open PartitionedBloom (Holds)

def operations : Operations ScalableBloom := .permanent insert contains containsThenInsert clear

/-- The parameters that a filter keeps. -/
def config (f : ScalableBloom) : Config :=
  ⟨f.hint, f.rate, f.tighteningRatio, f.fillRatio, f.hasher, f.elementary⟩

/-- The rate of the filter with number `i`. -/
def Config.rate (c : Config) (i : Nat) : Float := c.falsePositiveRate * power c.tighteningRatio i

/-- The filter with number `i`, without items. -/
def Config.link (c : Config) (i : Nat) : Outcome PartitionedBloom :=
  PartitionedBloom.ofConfigWith c.elementary
    { capacity := c.hint, falsePositiveRate := c.rate i, hasher := c.hasher }

/-- The series of a single filter. -/
def Config.single (c : Config) (tail : PartitionedBloom) : ScalableBloom :=
  ⟨c.hint, c.falsePositiveRate, c.tighteningRatio, c.fillRatio, c.hasher, c.elementary, [], tail⟩

/-- A numbered filter is the fresh one of its number, fed with the items. -/
def Config.Feeds (c : Config) (numbered : PartitionedBloom × Nat) (items : List ByteArray) : Prop :=
  ∃ fresh, c.link numbered.2 = .ok fresh ∧ fresh.feed items = .ok numbered.1

/-- The tail is as full as a filter may get. -/
abbrev Full (f : ScalableBloom) : Prop := f.tail.expectedFillWith f.elementary >= f.fillRatio

/-- How an insertion ends. -/
inductive Inserts (f : ScalableBloom) (data : ByteArray) : Outcome ScalableBloom → Prop
  | stored {tail : PartitionedBloom} (room : ¬ f.Full) (run : f.tail.insert data = .ok tail) :
      Inserts f data (.ok { f with tail })
  | grown {fresh tail : PartitionedBloom} (full : f.Full) (opened : f.config.link f.filters = .ok fresh)
      (run : fresh.insert data = .ok tail) : Inserts f data (.ok { f with earlier := f.series, tail })
  | refused {failure : Failure} (full : f.Full) (closed : f.config.link f.filters = .error failure) :
      Inserts f data (.error failure)

/-- The earlier filters stay, and the tail does nothing but take items. -/
def Keeps (f g : ScalableBloom) : Prop :=
  ∃ items tail, f.tail.feed items = .ok tail ∧ f.earlier ++ [tail] <+: g.series

/-- A hint and elementary functions that give every filter some bits. -/
structure Config.Sized (c : Config) : Prop where
  hint : 0 < c.hint
  cells : ∀ rate, checkRate rate = .ok () → 0 < c.elementary.optimalCells c.hint rate

/-- The filters of the series hold the items of a list each. -/
structure Grown (fills : List (List ByteArray)) (last : List ByteArray) (f : ScalableBloom) : Prop where
  earlier : List.Forall₂ f.config.Feeds f.earlier.zipIdx fills
  tail : f.config.Feeds (f.tail, f.earlier.length) last

section Links
variable {c : Config} {i : Nat}

theorem Config.Sized.validate (sized : c.Sized) :
    Bloom.Config.validate { capacity := c.hint, falsePositiveRate := c.rate i, hasher := c.hasher } =
      checkRate (c.rate i) := by
  rw [Bloom.Config.validate, checkCapacity, require, decide_eq_true sized.hint, if_pos rfl]
  rfl

theorem Config.Sized.link_holds (sized : c.Sized) {fresh : PartitionedBloom} (opened : c.link i = .ok fresh) :
    ∃ m k, fresh = .empty m k c.hasher ∧ Holds [] fresh := by
  obtain ⟨_, valid, made⟩ := bind_eq_ok.mp opened
  rw [sized.validate] at valid
  cases made
  exact ⟨_, _, rfl, PartitionedBloom.empty_holds (sized.cells _ valid) ..⟩

/-- Nothing but a rate outside the unit interval ends a series. -/
theorem Config.Sized.link_failed (sized : c.Sized) {failure : Failure} (closed : c.link i = .error failure) :
    failure = .config (.falsePositiveRate (c.rate i)) ∧ ¬ (0.0 < c.rate i ∧ c.rate i < 1.0) := by
  rw [Config.link, PartitionedBloom.ofConfigWith, sized.validate, checkRate, require] at closed
  split at closed
  · cases closed
  · next outside =>
    cases closed
    simp only [Bool.and_eq_true, decide_eq_true_eq] at outside
    exact ⟨rfl, outside⟩

theorem Config.Feeds.holds (sized : c.Sized) {filter : PartitionedBloom} {items : List ByteArray}
    (h : c.Feeds (filter, i) items) : Holds items filter := by
  obtain ⟨fresh, opened, fed⟩ := h
  obtain ⟨_, _, -, blank⟩ := sized.link_holds opened
  obtain ⟨_, run, holds, -⟩ := blank.feed items
  cases fed.symm.trans run
  exact holds

theorem Config.Feeds.insert (sized : c.Sized) {filter : PartitionedBloom} {items : List ByteArray}
    (h : c.Feeds (filter, i) items) (data : ByteArray) :
    ∃ next, filter.insert data = .ok next ∧ c.Feeds (next, i) (items ++ [data]) := by
  obtain ⟨next, run, -⟩ := (h.holds sized).insert data
  obtain ⟨fresh, opened, fed⟩ := h
  exact ⟨next, run, fresh, opened, (foldlM_concat_of_ok fed data).trans run⟩

theorem Config.Feeds.clear (sized : c.Sized) {filter : PartitionedBloom} {items : List ByteArray}
    (h : c.Feeds (filter, i) items) : c.link i = .ok filter.clear := by
  obtain ⟨fresh, opened, fed⟩ := h
  obtain ⟨m, k, rfl, blank⟩ := sized.link_holds opened
  obtain ⟨_, run, holds, shaped⟩ := blank.feed items
  cases fed.symm.trans run
  rw [opened, holds.clear shaped]

end Links

section Steps
variable {f g : ScalableBloom} {fills : List (List ByteArray)} {last : List ByteArray} {data : ByteArray}

theorem Grown.series (h : Grown fills last f) :
    List.Forall₂ f.config.Feeds f.series.zipIdx (fills ++ [last]) := by
  rw [ScalableBloom.series, List.zipIdx_append, Nat.zero_add]
  exact List.rel_append h.earlier (.cons h.tail .nil)

theorem Grown.holds (sized : f.config.Sized) (h : Grown fills last f) :
    List.Forall₂ (fun filter items => Holds items filter) f.series (fills ++ [last]) := by
  have numbered := h.series.imp fun _ _ feeds => feeds.holds sized
  rw [← List.zipIdx_map_fst 0 f.series, List.forall₂_map_left_iff]
  exact numbered

theorem Grown.insert (sized : f.config.Sized) (h : Grown fills last f) (data : ByteArray) :
    Inserts f data (f.insert data) := by
  by_cases full : f.Full
  · cases opened : f.config.link f.filters with
    | error failure =>
      have refused : f.insert data = .error failure := by
        rw [ScalableBloom.insert, if_pos full, grow]
        change (f.config.link f.filters >>= _) >>= _ = _
        rw [opened]
        rfl
      exact refused ▸ .refused full opened
    | ok fresh =>
      obtain ⟨_, _, -, blank⟩ := sized.link_holds opened
      obtain ⟨tail, run, -⟩ := blank.insert data
      have grown : f.insert data = .ok { f with earlier := f.series, tail } := by
        rw [ScalableBloom.insert, if_pos full, grow]
        change (f.config.link f.filters >>= _) >>= _ = _
        rw [opened]
        change (fresh.insert data >>= _) = _
        rw [run]
        rfl
      exact grown ▸ .grown full opened run
  · obtain ⟨tail, run, -⟩ := h.tail.insert sized data
    have stored : f.insert data = .ok { f with tail } := by
      rw [ScalableBloom.insert, if_neg full]
      change (f.tail.insert data >>= _) = _
      rw [run]
      rfl
    exact stored ▸ .stored full run

theorem Grown.next (sized : f.config.Sized) (h : Grown fills last f) (inserts : Inserts f data (.ok g)) :
    g.config = f.config ∧ ∃ fills' last', Grown fills' last' g ∧
      fills'.flatten ++ last' = fills.flatten ++ last ++ [data] := by
  generalize outcome_eq : Except.ok g = outcome at inserts
  cases inserts with
  | stored room run =>
    cases outcome_eq
    obtain ⟨tail, again, feeds⟩ := h.tail.insert sized data
    cases run.symm.trans again
    exact ⟨rfl, fills, last ++ [data], ⟨h.earlier, feeds⟩, by rw [List.append_assoc]⟩
  | @grown fresh tail full opened run =>
    cases outcome_eq
    refine ⟨rfl, fills ++ [last], [data], ⟨h.series, fresh, ?_, ?_⟩, by simp⟩
    · have number : f.series.length = f.filters := by simp [ScalableBloom.series, filters]
      exact number ▸ opened
    · exact (foldlM_singleton ..).trans run
  | refused => cases outcome_eq

/-- The series is asked from its oldest filter on, and each of them answers. -/
theorem containsAny_of_holds {filters : List PartitionedBloom}
    (h : List.Forall₂ (fun filter items => Holds items filter) filters fills) (data : ByteArray) :
    ∃ member, containsAny data filters = .ok member ∧ (data ∈ fills.flatten → member = true) := by
  induction h with
  | nil => exact ⟨false, rfl, fun member => by cases member⟩
  | @cons filter items rest fills here _ ih =>
    obtain ⟨member, run, found⟩ := ih
    cases answer : filter.contains data with
    | error failure => cases (here.contains data).symm.trans answer
    | ok first =>
      cases first with
      | true =>
        refine ⟨true, ?_, fun _ => rfl⟩
        rw [containsAny, answer]
        rfl
      | false =>
        refine ⟨member, ?_, fun listed => found ?_⟩
        · rw [containsAny, answer]
          exact run
        · rcases List.mem_append.mp listed with own | other
          · cases (here.contains_of_mem own).symm.trans answer
          · exact other

theorem foldl_count_of_holds {filters : List PartitionedBloom}
    (h : List.Forall₂ (fun filter items => Holds items filter) filters fills) (n : Nat) :
    filters.foldl (fun n filter => n + filter.count) n = n + fills.flatten.length := by
  induction h generalizing n with
  | nil => rfl
  | cons here _ ih =>
    rw [List.foldl_cons, ih, here.count, List.flatten_cons, List.length_append, Nat.add_assoc]

theorem Grown.contains (sized : f.config.Sized) (h : Grown fills last f) (data : ByteArray) :
    ∃ member, f.contains data = .ok member ∧ (data ∈ fills.flatten ++ last → member = true) := by
  have found := containsAny_of_holds (h.holds sized) data
  rwa [List.flatten_concat] at found

theorem Grown.count (sized : f.config.Sized) (h : Grown fills last f) :
    f.count = (fills.flatten ++ last).length := by
  rw [ScalableBloom.count, foldl_count_of_holds (h.holds sized), Nat.zero_add, List.flatten_concat]

theorem containsThenInsert_eq {member : Bool} (run : f.contains data = .ok member) :
    f.containsThenInsert data = (f.insert data).map fun g => (member, g) := by
  rw [containsThenInsert, run]
  cases f.insert data with
  | error _ => rfl
  | ok _ => rfl

/-- The oldest filter without its items is the fresh one that the series started with. -/
theorem Grown.link_zero (sized : f.config.Sized) (h : Grown fills last f) :
    f.config.link 0 = .ok f.first.clear := by
  have feeds : ∃ items, f.config.Feeds (f.first, 0) items := by
    have listed := h.series
    generalize fills ++ [last] = lists at listed
    rw [ScalableBloom.series] at listed
    rw [first]
    cases oldest : f.earlier with
    | nil =>
      rw [oldest] at listed
      cases listed with
      | cons feeds _ => exact ⟨_, feeds⟩
    | cons filter rest =>
      rw [oldest] at listed
      cases listed with
      | cons feeds _ => exact ⟨_, feeds⟩
  obtain ⟨items, feeds⟩ := feeds
  exact feeds.clear sized

theorem Grown.clear (sized : f.config.Sized) (h : Grown fills last f) : Grown [] [] f.clear :=
  ⟨.nil, f.first.clear, h.link_zero sized, rfl⟩

theorem Keeps.refl (f : ScalableBloom) : f.Keeps f := ⟨[], f.tail, rfl, List.prefix_rfl⟩

theorem Keeps.trans {k : ScalableBloom} (h : f.Keeps g) (h' : g.Keeps k) : f.Keeps k := by
  obtain ⟨items, tail, fed, short⟩ := h
  obtain ⟨more, tail', fed', short'⟩ := h'
  rcases List.prefix_concat_iff.mp short with same | frozen
  · -- no filter was appended on the first way, so the tail takes the items of both
    obtain ⟨earlier, last⟩ := List.append_inj' same rfl
    cases last
    refine ⟨items ++ more, tail', (foldlM_append_of_ok fed more).trans fed', ?_⟩
    rw [earlier]
    exact short'
  · exact ⟨items, tail, fed, (frozen.trans (List.prefix_append ..)).trans short'⟩

theorem Inserts.keeps (h : Inserts f data (.ok g)) : f.Keeps g := by
  generalize outcome_eq : Except.ok g = outcome at h
  cases h with
  | stored _ run =>
    cases outcome_eq
    exact ⟨[data], _, (foldlM_singleton ..).trans run, List.prefix_rfl⟩
  | grown =>
    cases outcome_eq
    exact ⟨[], f.tail, rfl, List.prefix_append ..⟩
  | refused => cases outcome_eq

end Steps

/-- All that serving a request can do to a filter. -/
inductive Effect (f : ScalableBloom) : Event → ScalableBloom → Prop
  | inserted {event : Event} {data : ByteArray} {g : ScalableBloom}
      (retained : ∀ held, retain true held event = data ::ₘ held) (inserts : Inserts f data (.ok g)) :
      Effect f event g
  | kept {event : Event} (retained : ∀ held, retain true held event = held) : Effect f event f
  | cleared : Effect f (.clear, .ok none) f.clear

theorem Effect.keeps {f g : ScalableBloom} {event : Event} (h : Effect f event g) (going : event.1 ≠ .clear) :
    f.Keeps g := by
  cases h with
  | inserted _ inserts => exact inserts.keeps
  | kept => exact .refl f
  | cleared => exact absurd rfl going

/-- The series of a configuration holds the items. -/
def Tracks (c : Config) (held : Multiset ByteArray) (f : ScalableBloom) : Prop :=
  f.config = c ∧ ∃ fills last, Grown fills last f ∧
    ((fills.flatten ++ last : List ByteArray) : Multiset ByteArray) = held

section Runs
variable {c : Config} {held : Multiset ByteArray} {f g start : ScalableBloom}

theorem Tracks.effect (sized : c.Sized) (h : Tracks c held f) (request : Request) :
    Effect f (request, (operations.step f request).1) (operations.step f request).2 := by
  obtain ⟨rfl, fills, last, grown, -⟩ := h
  cases request with
  | insert data =>
    have inserts := grown.insert sized data
    simp only [Operations.step, operations, Operations.permanent]
    cases outcome : f.insert data with
    | error failure => exact .kept fun _ => rfl
    | ok g => exact .inserted (fun _ => rfl) (outcome ▸ inserts)
  | contains data => exact .kept fun _ => rfl
  | containsThenInsert data =>
    have inserts := grown.insert sized data
    obtain ⟨member, answer, -⟩ := grown.contains sized data
    simp only [Operations.step, operations, Operations.permanent, containsThenInsert_eq answer]
    cases outcome : f.insert data with
    | error failure => exact .kept fun _ => rfl
    | ok g => exact .inserted (fun _ => by simp [retain, settle, Except.map]) (outcome ▸ inserts)
  | containsThenErase data => exact .kept fun _ => rfl
  | clear => exact .cleared

theorem Tracks.next {event : Event} (sized : c.Sized) (h : Tracks c held f) (effect : Effect f event g) :
    Tracks c (retain true held event) g := by
  obtain ⟨rfl, fills, last, grown, rfl⟩ := id h
  cases effect with
  | @inserted _ data _ retained inserts =>
    obtain ⟨same, fills', last', more, items⟩ := grown.next sized inserts
    refine ⟨same, fills', last', more, ?_⟩
    rw [items, retained, ← Multiset.coe_add, Multiset.add_comm]
    rfl
  | kept retained =>
    rw [retained]
    exact h
  | cleared => exact ⟨rfl, [], [], grown.clear sized, rfl⟩

theorem run_tracks (sized : c.Sized) (fresh : Tracks c 0 start) (requests : List Request) :
    Tracks c (live true (serve operations.step start requests).1) (serve operations.step start requests).2 := by
  refine serve_induction (P := fun log f => Tracks c (live true log) f) fresh
    (fun log f request tracks => ?_) requests
  rw [live_concat]
  exact tracks.next sized (tracks.effect sized request)

theorem run_keeps (sized : c.Sized) (h : Tracks c held f) (more : List Request)
    (going : ∀ request ∈ more, request ≠ .clear) : f.Keeps (serve operations.step f more).2 := by
  induction more generalizing f held with
  | nil => exact .refl f
  | cons request rest ih =>
    obtain ⟨first, others⟩ := List.forall_mem_cons.mp going
    have effect := h.effect sized request
    exact (effect.keeps first).trans (ih (h.next sized effect) others)

theorem ofConfig_eq_ok (accepted : ofConfig c = .ok start) :
    0 < c.hint ∧ ∃ fresh, c.link 0 = .ok fresh ∧ start = c.single fresh := by
  obtain ⟨_, valid, accepted⟩ := bind_eq_ok.mp accepted
  obtain ⟨fresh, opened, accepted⟩ := bind_eq_ok.mp accepted
  obtain ⟨_, hint, -⟩ := bind_eq_ok.mp valid
  cases accepted
  exact ⟨decide_eq_true_eq.mp (require_eq_ok.mp hint), fresh, opened, rfl⟩

/-- A step fails only where an insertion finds the tail full and the next rate out of range. -/
theorem Tracks.step_failed (sized : c.Sized) (h : Tracks c held f) {request : Request} {failure : Failure}
    (failed : (operations.step f request).1 = .error failure) :
    (operations.step f request).2 = f ∧ f.Full ∧ c.link f.filters = .error failure := by
  obtain ⟨rfl, fills, last, grown, -⟩ := h
  have refused {data : ByteArray} (bad : f.insert data = .error failure) :
      f.Full ∧ f.config.link f.filters = .error failure := by
    have inserts := grown.insert sized data
    rw [bad] at inserts
    cases inserts with
    | refused full closed => exact ⟨full, closed⟩
  cases request with
  | insert data =>
    obtain ⟨bad, same⟩ := settle_failed failed
    exact ⟨same, refused (map_eq_error.mp bad)⟩
  | contains data =>
    obtain ⟨member, answer, -⟩ := grown.contains sized data
    cases answer.symm.trans (map_eq_error.mp failed)
  | containsThenInsert data =>
    obtain ⟨member, answer, -⟩ := grown.contains sized data
    obtain ⟨bad, same⟩ := settle_failed failed
    have insertion := (containsThenInsert_eq answer).symm.trans (map_eq_error.mp bad)
    exact ⟨same, refused (map_eq_error.mp insertion)⟩
  | containsThenErase data => cases failed
  | clear => cases failed

end Runs

/-- Let the elementary functions give some bits to every rate, as logarithms other than zero do. Whatever is
asked, every filter of the series is the fresh one of its number, fed with the items inserted while it was the
last; none but the last changes, and none is dropped before a clearing. Every item inserted is contained. An
insertion appends a filter just if the tail is full, and it fails just if it should append one whose rate is out
of range, in which case nothing changes. -/
theorem series_only_grows (c : Config) (start : ScalableBloom) (accepted : ofConfig c = .ok start)
    (positive : ∀ rate, checkRate rate = .ok () → 0 < c.elementary.optimalCells c.hint rate)
    (requests : List Request) :
    let log := (serve operations.step start requests).1
    let f := (serve operations.step start requests).2
    let held := live true log
    f.config = c ∧ f.clear = start ∧ f.series ≠ [] ∧
    (∃ fills : List (List ByteArray), List.Forall₂ c.Feeds f.series.zipIdx fills ∧
      (fills.flatten : Multiset ByteArray) = held) ∧
    f.count = held.card ∧
    (∀ data ∈ held, f.contains data = .ok true) ∧
    (∀ data, Inserts f data (f.insert data) ∧ ∃ member, f.contains data = .ok member ∧
      f.containsThenInsert data = (f.insert data).map fun g => (member, g)) ∧
    (∀ request failure, (operations.step f request).1 = .error failure →
      (operations.step f request).2 = f ∧ f.Full ∧
      failure = .config (.falsePositiveRate (c.rate f.filters)) ∧
      ¬ (0.0 < c.rate f.filters ∧ c.rate f.filters < 1.0)) ∧
    ∀ more, (∀ request ∈ more, request ≠ .clear) → f.Keeps (serve operations.step f more).2 := by
  obtain ⟨hint, fresh, opened, rfl⟩ := ofConfig_eq_ok accepted
  have sized : c.Sized := ⟨hint, positive⟩
  have begun : Tracks c 0 (c.single fresh) := ⟨rfl, [], [], ⟨.nil, fresh, opened, rfl⟩, rfl⟩
  intro log f held
  have tracks : Tracks c held f := run_tracks sized begun requests
  obtain ⟨same, fills, last, grown, items⟩ := id tracks
  have listed (data : ByteArray) : data ∈ held ↔ data ∈ fills.flatten ++ last := by
    rw [← items, Multiset.mem_coe]
  have sized' : f.config.Sized := same.symm ▸ sized
  refine ⟨same, ?_, List.concat_ne_nil _ _, ⟨fills ++ [last], same ▸ grown.series, ?_⟩, ?_,
    fun data member => ?_, fun data => ⟨grown.insert sized' data, ?_⟩, fun request failure failed => ?_,
    run_keeps sized tracks⟩
  · have first : c.link 0 = .ok f.first.clear := same ▸ grown.link_zero sized'
    rw [Except.ok.inj (opened.symm.trans first), ← same]
    rfl
  · rw [List.flatten_concat]
    exact items
  · rw [grown.count sized', ← items, Multiset.coe_card]
  · obtain ⟨answer, run, found⟩ := grown.contains sized' data
    rw [run, found ((listed data).mp member)]
  · obtain ⟨answer, run, -⟩ := grown.contains sized' data
    exact ⟨answer, run, containsThenInsert_eq run⟩
  · obtain ⟨unchanged, full, closed⟩ := tracks.step_failed sized failed
    obtain ⟨cause, outside⟩ := sized.link_failed closed
    exact ⟨unchanged, full, cause, outside⟩

/-- The values of the elementary functions at the places that two short filters need. -/
private def tabulated : Elementary where
  log x :=
    if x == 0.1 then -2.3025850929940455 else if x == 0.05 then -2.995732273553991 else -0.6931471805599453
  log2 x := if x == 10.0 then 3.321928094887362 else 4.321928094887363
  exp x := if x == -1.0 then 0.36787944117144233 else if x == -0.5 then 0.6065306597126334 else 1.0
  ceil x := if x <= 4.0 then 4.0 else if x <= 5.0 then 5.0 else if x <= 6.0 then 6.0 else 7.0

/-- Filters for one item each. The first has four partitions of two bits. -/
def short (tighteningRatio : Float) : Config :=
  ⟨1, 0.1, tighteningRatio, 0.5, .leadingBytes, tabulated⟩

private theorem tabulated_cells (rate : Float) : 0 < tabulated.optimalCells 1 rate := by
  have values : tabulated.log rate = -2.3025850929940455 ∨ tabulated.log rate = -2.995732273553991 ∨
      tabulated.log rate = -0.6931471805599453 := by
    simp only [tabulated]
    split
    · exact .inl rfl
    · split
      · exact .inr (.inl rfl)
      · exact .inr (.inr rfl)
  rw [Elementary.optimalCells]
  rcases values with value | value | value
  · rw [value]
    decide +kernel
  · rw [value]
    decide +kernel
  · rw [value]
    decide +kernel

/-- Two items fill the first filter, so that the third opens another. -/
private def threeItems : List Request :=
  [.insert (Hasher.dataOf 0 1), .insert (Hasher.dataOf 1 1), .containsThenInsert (Hasher.dataOf 0 0)]

theorem third_item_opens_a_filter :
    ∃ start, ofConfig (short 0.5) = .ok start ∧
      (∀ rate, checkRate rate = .ok () → 0 < (short 0.5).elementary.optimalCells (short 0.5).hint rate) ∧
      let f := (serve operations.step start threeItems).2
      f.series.map PartitionedBloom.count = [2, 1] ∧ f.contains (Hasher.dataOf 0 1) = .ok true ∧
        f.clear = start := by
  have evaluated : (ofConfig (short 0.5)).toOption.map (fun start =>
      let (log, f) := serve operations.step start threeItems
      (f.series.map PartitionedBloom.count, decide (Hasher.dataOf 0 1 ∈ live true log))) =
        some ([2, 1], true) := by
    decide +kernel
  obtain ⟨start, accepted, measured⟩ := toOption_map_eq_some.mp evaluated
  obtain ⟨counts, member⟩ := Prod.mk.inj measured
  have positive : ∀ rate, checkRate rate = .ok () →
      0 < (short 0.5).elementary.optimalCells (short 0.5).hint rate := fun rate _ => tabulated_cells rate
  obtain ⟨-, cleared, -, -, -, contained, -⟩ :=
    series_only_grows (short 0.5) start accepted positive threeItems
  exact ⟨start, accepted, positive, counts, contained _ (decide_eq_true_eq.mp member), cleared⟩

/-- A ratio that takes the second rate to zero: the third item is refused, and the filter is as before. -/
example : (ofConfig (short 5e-324)).toOption.map (fun start =>
    let (log, f) := serve operations.step start threeItems
    (log.map fun event => event.2.isOk, f.series.map PartitionedBloom.count)) =
      some ([true, true, false], [2]) := by
  decide +kernel

end Synopsis.Presence.ScalableBloom
