import Synopsis.Proofs.Lifecycles
import Synopsis.Proofs.Presence.BloomVariants
import Synopsis.Proofs.Presence.ItemBits
import Synopsis.Proofs.Presence.ScalableSeries

/-! What clearing forgets of a Bloom filter of any kind: all that its operations can change, but for the source of
random words. -/
namespace Synopsis.Packed.Counters
variable {c d : Counters} {i value : Nat} {amount : Int}

theorem clear_set (run : c.set i value = .ok d) : d.clear = c.clear := by
  unfold set at run
  split at run
  · cases run
    rfl
  · cases run

theorem clear_adjust (run : c.adjust i amount = .ok d) : d.clear = c.clear := by
  unfold adjust at run
  split at run
  · cases run
    rfl
  · cases run

end Synopsis.Packed.Counters

namespace Synopsis.Presence
open Hashing Packed Randomness

/-- What a filter does with requests when it is made, changed and cleared. -/
def Operations.lifecycle {F : Type} (o : Operations F) (make : Hasher → Outcome F) (withHasher : F → Hasher → F) :
    Lifecycle Unit F Request where
  make hasher _ := make hasher
  step f request := (o.step f request).2
  withHasher := withHasher
  source _ := ()
  clear := o.clear

section Permanent
variable {F β : Type} {v : F → β}

/-- Of a filter that gives no item up, what an insertion leaves alone stays. -/
theorem Operations.permanent_step_kept {insert : F → ByteArray → Outcome F} {contains : F → ByteArray → Outcome Bool}
    {containsThenInsert : F → ByteArray → Outcome (Bool × F)} {clear : F → F}
    (inserted : ∀ f data g, insert f data = .ok g → v g = v f)
    (inserts : ∀ f data member g, containsThenInsert f data = .ok (member, g) → insert f data = .ok g)
    (cleared : ∀ f, v (clear f) = v f) (f : F) (request : Request) :
    v ((permanent insert contains containsThenInsert clear).step f request).2 = v f := by
  refine Operations.step_kept _ inserted inserts (fun f data member g found => ?_) cleared f request
  cases found
  rfl

end Permanent

namespace Bloom
variable {f g : Bloom} {data : ByteArray} {member : Bool}

theorem clear_insert (run : f.insert data = .ok g) : g.clear = f.clear := by
  obtain ⟨cells, run, made⟩ := bind_eq_ok.mp run
  have kept : cells.clear = f.cells.clear := foldlM_kept (fun _ _ _ => Counters.clear_set) run
  cases made
  simp only [clear, kept]

theorem clear_step (f : Bloom) (request : Request) : (operations.step f request).2.clear = f.clear := by
  apply Operations.permanent_step_kept (v := clear)
  case inserted => exact fun _ _ _ => clear_insert
  case inserts => exact fun f _ _ _ => (fused f).insert_eq_ok
  case cleared => exact fun _ => rfl

def lifecycle (c : Config) : Lifecycle Unit Bloom Request :=
  operations.lifecycle (fun hasher => ofConfig { c with hasher }) withHasher

theorem renews (c : Config) : (lifecycle c).Renews := by
  apply Lifecycle.renews_of_clear
    (empty (optimalCells c.capacity c.falsePositiveRate) (optimalHashes c.falsePositiveRate))
  case make =>
    intro hasher f run
    obtain ⟨_, valid, run⟩ := bind_eq_ok.mp run
    obtain ⟨_, shape, run⟩ := bind_eq_ok.mp run
    exact ⟨Except.ok.inj run, fun other => bind_eq_ok.mpr ⟨_, valid, bind_eq_ok.mpr ⟨_, shape, rfl⟩⟩⟩
  case start => exact fun hasher => rfl
  case step => exact clear_step
  case withHasher => exact fun f hasher => rfl
  case choice => exact fun hasher other => rfl

end Bloom

namespace PartitionedBloom
variable {f g : PartitionedBloom} {data : ByteArray} {member : Bool} {p : Probe} {size i : Nat}
  {partitions after : List Counters}

theorem clear_setEach (run : setEach p size i partitions = .ok after) :
    after.map Counters.clear = partitions.map Counters.clear := by
  induction partitions generalizing i after with
  | nil =>
    cases run
    rfl
  | cons cells rest ih =>
    obtain ⟨_, first, run⟩ := bind_eq_ok.mp run
    obtain ⟨_, others, made⟩ := bind_eq_ok.mp run
    cases made
    rw [List.map_cons, List.map_cons, Counters.clear_set first, ih others]

theorem clear_insert (run : f.insert data = .ok g) : g.clear = f.clear := by
  obtain ⟨_, set, made⟩ := bind_eq_ok.mp run
  cases made
  simp only [clear, clear_setEach set]

theorem clear_empty (m k : Nat) (hasher : Hasher) : (empty m k hasher).clear = empty m k hasher := by
  simp only [clear, empty, List.map_replicate]
  rfl

theorem clear_clear (f : PartitionedBloom) : f.clear.clear = f.clear := by
  simp only [clear, List.map_map]
  rfl

theorem clear_step (f : PartitionedBloom) (request : Request) : (operations.step f request).2.clear = f.clear := by
  apply Operations.permanent_step_kept (v := clear)
  case inserted => exact fun _ _ _ => clear_insert
  case inserts => exact fun f _ _ _ => (fused f).insert_eq_ok
  case cleared => exact clear_clear

theorem ofConfigWith_eq_ok {e : Elementary} {c : Bloom.Config} (run : ofConfigWith e c = .ok f) :
    let new := empty (e.optimalCells c.capacity c.falsePositiveRate) (e.optimalHashes c.falsePositiveRate)
    new c.hasher = f ∧ ∀ hasher, ofConfigWith e { c with hasher } = .ok (new hasher) := by
  obtain ⟨_, valid, run⟩ := bind_eq_ok.mp run
  exact ⟨Except.ok.inj run, fun hasher => bind_eq_ok.mpr ⟨_, valid, rfl⟩⟩

def lifecycle (e : Elementary) (c : Bloom.Config) : Lifecycle Unit PartitionedBloom Request :=
  operations.lifecycle (fun hasher => ofConfigWith e { c with hasher }) withHasher

theorem renews (e : Elementary) (c : Bloom.Config) : (lifecycle e c).Renews := by
  apply Lifecycle.renews_of_clear
  case make => exact fun hasher f run => ofConfigWith_eq_ok run
  case start => exact fun hasher => clear_empty _ _ hasher
  case step => exact clear_step
  case withHasher => exact fun f hasher => rfl
  case choice => exact fun hasher other => rfl

end PartitionedBloom

namespace CountingBloom
variable {f g : CountingBloom} {data : ByteArray} {member : Bool} {cells after : Counters} {positions : List Nat}

theorem clear_adjusts {amount : Int}
    (run : positions.foldlM (fun cells i => cells.adjust i amount) cells = .ok after) : after.clear = cells.clear :=
  foldlM_kept (fun _ _ _ => Counters.clear_adjust) run

theorem clear_insert (run : f.insert data = .ok g) : g.clear = f.clear := by
  obtain ⟨cells, run, made⟩ := bind_eq_ok.mp run
  have kept : cells.clear = f.cells.clear := clear_adjusts run
  cases made
  simp only [clear, kept]

theorem clear_containsThenErase (run : f.containsThenErase data = .ok (member, g)) : g.clear = f.clear := by
  obtain ⟨covered, -, run⟩ := bind_eq_ok.mp run
  cases covered with
  | false =>
    cases run
    rfl
  | true =>
    obtain ⟨cells, run, made⟩ := bind_eq_ok.mp run
    have kept : cells.clear = f.cells.clear := clear_adjusts run
    cases made
    simp only [clear, kept]

theorem clear_step (f : CountingBloom) (request : Request) : (operations.step f request).2.clear = f.clear := by
  apply operations.step_kept (v := clear)
  case insert => exact fun _ _ _ => clear_insert
  case inserts => exact fun f _ _ _ => (fused f).insert_eq_ok
  case containsThenErase => exact fun _ _ _ _ => clear_containsThenErase
  case clear => exact fun _ => rfl

def lifecycle (c : Config) : Lifecycle Unit CountingBloom Request :=
  operations.lifecycle (fun hasher => ofConfig { c with hasher }) withHasher

theorem renews (c : Config) : (lifecycle c).Renews := by
  apply Lifecycle.renews_of_clear
    (empty (optimalCells c.capacity c.falsePositiveRate) (optimalHashes c.falsePositiveRate) c.counterBits)
  case make =>
    intro hasher f run
    obtain ⟨_, valid, run⟩ := bind_eq_ok.mp run
    obtain ⟨_, shape, run⟩ := bind_eq_ok.mp run
    exact ⟨Except.ok.inj run, fun other => bind_eq_ok.mpr ⟨_, valid, bind_eq_ok.mpr ⟨_, shape, rfl⟩⟩⟩
  case start => exact fun hasher => rfl
  case step => exact clear_step
  case withHasher => exact fun f hasher => rfl
  case choice => exact fun hasher other => rfl

end CountingBloom

namespace DeletableBloom
variable {f g : DeletableBloom} {data : ByteArray} {member : Bool} {regionSize i : Nat} {s t : Counters × Counters}

theorem clear_markOrSet (run : markOrSet regionSize s i = .ok t) :
    (t.1.clear, t.2.clear) = (s.1.clear, s.2.clear) := by
  rcases markOrSet_eq_ok run with ⟨same, set⟩ | ⟨set, same⟩
  · rw [same, Counters.clear_set set]
  · rw [same, Counters.clear_set set]

theorem clear_insert (run : f.insert data = .ok g) : g.clear = f.clear := by
  obtain ⟨⟨cells, collisions⟩, run, made⟩ := bind_eq_ok.mp run
  have kept : (cells.clear, collisions.clear) = (f.cells.clear, f.collisions.clear) :=
    foldlM_kept (v := fun s : Counters × Counters => (s.1.clear, s.2.clear)) (fun _ _ _ => clear_markOrSet) run
  obtain ⟨first, second⟩ := Prod.mk.inj kept
  cases made
  simp only [clear, first, second]

theorem clear_containsThenErase (run : f.containsThenErase data = .ok (member, g)) : g.clear = f.clear := by
  obtain ⟨covered, -, run⟩ := bind_eq_ok.mp run
  cases covered with
  | false =>
    cases run
    rfl
  | true =>
    obtain ⟨cells, run, made⟩ := bind_eq_ok.mp run
    have kept : cells.clear = f.cells.clear := by
      refine foldlM_kept (fun s i t step => ?_) run
      obtain ⟨flag, -, rest⟩ := bind_eq_ok.mp step
      split at rest
      · exact Counters.clear_set rest
      · cases rest
        rfl
    cases made
    simp only [clear, kept]

theorem clear_step (f : DeletableBloom) (request : Request) : (operations.step f request).2.clear = f.clear := by
  apply operations.step_kept (v := clear)
  case insert => exact fun _ _ _ => clear_insert
  case inserts => exact fun f _ _ _ => (fused f).insert_eq_ok
  case containsThenErase => exact fun _ _ _ _ => clear_containsThenErase
  case clear => exact fun _ => rfl

def lifecycle (c : Config) : Lifecycle Unit DeletableBloom Request :=
  operations.lifecycle (fun hasher => ofConfig { c with hasher }) withHasher

theorem renews (c : Config) : (lifecycle c).Renews := by
  apply Lifecycle.renews_of_clear
    (empty (.split (optimalCells c.capacity c.falsePositiveRate) c.regions) c.regions
      (optimalHashes c.falsePositiveRate))
  case make =>
    intro hasher f run
    obtain ⟨_, valid, run⟩ := bind_eq_ok.mp run
    obtain ⟨_, fits, run⟩ := bind_eq_ok.mp run
    exact ⟨Except.ok.inj run, fun other => bind_eq_ok.mpr ⟨_, valid, bind_eq_ok.mpr ⟨_, fits, rfl⟩⟩⟩
  case start => exact fun hasher => rfl
  case step => exact clear_step
  case withHasher => exact fun f hasher => rfl
  case choice => exact fun hasher other => rfl

end DeletableBloom

namespace ScalableBloom
variable {f g : ScalableBloom} {data : ByteArray} {member : Bool}

theorem inserts_of_ok (run : f.insert data = .ok g) : Inserts f data (.ok g) := by
  rw [insert] at run
  split at run
  next full =>
    obtain ⟨_, grown, run⟩ := bind_eq_ok.mp run
    obtain ⟨_, opened, longer⟩ := bind_eq_ok.mp grown
    cases longer
    obtain ⟨_, stored, made⟩ := bind_eq_ok.mp run
    cases made
    exact .grown full opened stored
  next room =>
    obtain ⟨_, stays, run⟩ := bind_eq_ok.mp run
    cases stays
    obtain ⟨_, stored, made⟩ := bind_eq_ok.mp run
    cases made
    exact .stored room stored

theorem first_withHasher (f : ScalableBloom) (hasher : Hasher) :
    (f.withHasher hasher).first = f.first.withHasher hasher := by
  simp only [first, withHasher]
  cases f.earlier with
  | nil => rfl
  | cons _ _ => rfl

/-- An insertion changes the first filter only by inserting into it, and a growing series keeps it. -/
theorem clear_insert (run : f.insert data = .ok g) : g.clear = f.clear := by
  have inserts := inserts_of_ok run
  generalize outcome_eq : Except.ok g = outcome at inserts
  cases inserts with
  | stored _ stored =>
    cases outcome_eq
    have kept := PartitionedBloom.clear_insert stored
    simp only [clear, first]
    cases f.earlier with
    | nil => simp only [List.headD_nil, kept]
    | cons _ _ => rfl
  | grown _ _ _ =>
    cases outcome_eq
    simp only [clear, first, series]
    cases f.earlier with
    | nil => rfl
    | cons _ _ => rfl
  | refused _ _ => cases outcome_eq

theorem insert_of_containsThenInsert (run : f.containsThenInsert data = .ok (member, g)) : f.insert data = .ok g := by
  obtain ⟨_, -, run⟩ := bind_eq_ok.mp run
  obtain ⟨_, inserted, made⟩ := bind_eq_ok.mp run
  cases made
  exact inserted

theorem clear_clear (f : ScalableBloom) : f.clear.clear = f.clear := by
  simp only [clear, first, List.headD_nil, PartitionedBloom.clear_clear]

def lifecycle (c : Config) : Lifecycle Unit ScalableBloom Request :=
  operations.lifecycle (fun hasher => ofConfig { c with hasher }) withHasher

theorem renews (c : Config) : (lifecycle c).Renews := by
  let e := c.elementary
  let rate := c.rate 0
  apply Lifecycle.renews_of_clear fun hasher => Config.single { c with hasher }
    (.empty (e.optimalCells c.hint rate) (e.optimalHashes rate) hasher)
  case make =>
    intro hasher f run
    obtain ⟨_, valid, run⟩ := bind_eq_ok.mp run
    obtain ⟨_, opened, made⟩ := bind_eq_ok.mp run
    obtain ⟨rfl, remade⟩ := PartitionedBloom.ofConfigWith_eq_ok opened
    exact ⟨Except.ok.inj made, fun other => bind_eq_ok.mpr ⟨_, valid, bind_eq_ok.mpr ⟨_, remade other, rfl⟩⟩⟩
  case start => exact fun hasher => congrArg (Config.single { c with hasher }) (PartitionedBloom.clear_empty ..)
  case step =>
    exact Operations.permanent_step_kept (fun _ _ _ => clear_insert) (fun _ _ _ _ => insert_of_containsThenInsert)
      clear_clear
  case withHasher =>
    intro f hasher
    change clear (f.withHasher hasher) = f.clear.withHasher hasher
    simp only [clear, first_withHasher]
    rfl
  case choice => exact fun hasher other => rfl

end ScalableBloom

namespace StableBloom
variable {σ : Type} [Source σ] {f g : StableBloom σ} {data : ByteArray} {member : Bool} {positions : List Nat}

/-- What clearing leaves when the source is at a given place. -/
def clearAt (f : StableBloom σ) (place : σ) : StableBloom σ := { f.clear with source := place }

theorem clear_fade {cells after : Counters} {p : Nat} {source rest : σ}
    (run : fade cells p source = .ok (after, rest)) : after.clear = cells.clear := by
  rw [fade] at run
  split at run
  · cases run
    rfl
  · obtain ⟨_, faded, made⟩ := bind_eq_ok.mp run
    cases made
    exact foldlM_kept (fun _ _ _ => Counters.clear_adjust) faded

theorem clearAt_fill (run : f.fill positions = .ok g) : g.clearAt = f.clearAt := by
  obtain ⟨⟨faded, _⟩, fades, run⟩ := bind_eq_ok.mp run
  obtain ⟨cells, filled, made⟩ := bind_eq_ok.mp run
  have kept : cells.clear = f.cells.clear :=
    (foldlM_kept (fun _ _ _ => Counters.clear_set) filled).trans (clear_fade fades)
  cases made
  funext place
  simp only [clearAt, clear, kept]

theorem insert_of_containsThenInsert (run : f.containsThenInsert data = .ok (member, g)) : f.insert data = .ok g := by
  obtain ⟨_, -, run⟩ := bind_eq_ok.mp run
  obtain ⟨_, filled, made⟩ := bind_eq_ok.mp run
  cases made
  exact filled

theorem clearAt_step (f : StableBloom σ) (request : Request) : (operations.step f request).2.clearAt = f.clearAt := by
  apply Operations.permanent_step_kept (v := clearAt)
  case inserted => exact fun f data g run => clearAt_fill run
  case inserts => exact fun f data member g run => insert_of_containsThenInsert run
  case cleared => exact fun f => rfl

/-- The filters of a constructor. -/
def lifecycleOf (make : Hasher → σ → Outcome (StableBloom σ)) : Lifecycle σ (StableBloom σ) Request where
  make := make
  step f request := (operations.step f request).2
  withHasher := withHasher
  source := source
  clear := clear

theorem renews_of_make (m k decrements bits : Nat) {make : Hasher → σ → Outcome (StableBloom σ)}
    (made : ∀ hasher source f, make hasher source = .ok f → empty m k decrements bits hasher source = f ∧
      ∀ other place, make other place = .ok (empty m k decrements bits other place)) :
    (lifecycleOf make).Renews := by
  have lasts : (lifecycleOf make).Lasts (empty m k decrements bits) (fun _ => True) clearAt := by
    constructor
    case make => exact made
    case start => exact fun hasher source => ⟨trivial, fun place => rfl⟩
    case step => exact fun f request _ => ⟨trivial, congrFun (clearAt_step f request)⟩
    case withHasher => exact fun f hasher _ => ⟨trivial, fun place => rfl⟩
    case choice => exact fun hasher other source => rfl
    case clear => exact fun f _ => rfl
  exact lasts.renews

def lifecycle (σ : Type) [Source σ] (c : Config) : Lifecycle σ (StableBloom σ) Request :=
  lifecycleOf fun hasher => ofConfigWith { c with hasher }

theorem renews (c : Config) : (lifecycle σ c).Renews := by
  let k := hashesFor c.cells c.falsePositiveRate
  refine renews_of_make c.cells k (optimalDecrements c.cells k c.counterBits c.falsePositiveRate) c.counterBits
    fun hasher source f run => ?_
  obtain ⟨_, valid, run⟩ := bind_eq_ok.mp run
  obtain ⟨_, shape, run⟩ := bind_eq_ok.mp run
  exact ⟨Except.ok.inj run, fun other place => bind_eq_ok.mpr ⟨_, valid, bind_eq_ok.mpr ⟨_, shape, rfl⟩⟩⟩

/-- Filters whose cells never fade, with any hasher put in place of the default one. -/
def unstableLifecycle (σ : Type) [Source σ] (m : Nat) (rate : Float) : Lifecycle σ (StableBloom σ) Request :=
  lifecycleOf fun hasher source => (unstable m rate source).map (withHasher · hasher)

theorem unstable_renews (m : Nat) (rate : Float) : (unstableLifecycle σ m rate).Renews := by
  refine renews_of_make m (optimalHashes rate) 0 1 fun hasher source f run => ?_
  obtain ⟨_, accepted, made⟩ := map_eq_ok.mp run
  obtain ⟨rfl, remade⟩ := unstable_eq_ok accepted
  exact ⟨made, fun other place => map_eq_ok.mpr ⟨_, remade place, rfl⟩⟩

end StableBloom

end Synopsis.Presence
