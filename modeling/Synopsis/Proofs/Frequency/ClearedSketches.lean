import Synopsis.Proofs.Frequency.CountMinRuns
import Synopsis.Proofs.Frequency.CountMinShapes
import Synopsis.Proofs.Frequency.TrackedStreams
import Synopsis.Proofs.Lifecycles

/-! What clearing forgets of a Count-Min sketch and of a heavy-hitter tracker. Clearing goes by the lengths of the
rows and a new sketch by its width, which are the same as long as only such sketches are merged. -/
namespace Synopsis.Frequency
open Hashing Numeric

namespace CountMin
variable {s t other : CountMin} {data : ByteArray} {n : UInt64}

/-- The sketch of the same shape without items. -/
def blank (s : CountMin) : CountMin := empty s.width s.depth s.epsilon s.delta s.hasher

theorem blank_empty (width depth : Nat) (epsilon delta : UInt64) (hasher : Hasher) :
    (empty width depth epsilon delta hasher).blank = empty width depth epsilon delta hasher := by
  simp only [blank, CountMin.depth, empty, List.length_replicate]

theorem blank_addCount (run : s.addCount data n = .ok t) : t.blank = s.blank := by
  rw [addCount_eq_ok run]
  simp only [blank, depth, length_addToRows]

theorem blank_merge (run : s.merge other = .ok t) : t.blank = s.blank := by
  have depth := depth_merge run
  obtain ⟨-, -, rfl⟩ := merge_eq_ok_iff.mp run
  simp only [blank, depth]

theorem blank_clear (s : CountMin) : s.clear.blank = s.blank := by
  simp only [blank, depth, clear, List.length_map]

theorem Rectangular.clear_eq (h : s.Rectangular) : s.clear = s.blank := by
  have rows : s.rows.map (fun row => Array.replicate row.size (0 : UInt64)) =
      List.replicate s.depth (Array.replicate s.width 0) := by
    rw [depth, ← List.map_const']
    exact List.map_congr_left fun row member => congrArg (Array.replicate · 0) (h row member)
  simp only [CountMin.clear, blank, empty, rows]

/-- An addition or a clearing, or a merge with a sketch that can be made. -/
abbrev Change : Type := Operation ⊕ {other : CountMin // other.Reachable}

def apply (s : CountMin) : Change → Outcome CountMin
  | .inl operation => s.step operation
  | .inr other => s.merge other

theorem Rectangular.apply (h : s.Rectangular) {change : Change} (run : s.apply change = .ok t) :
    t.Rectangular ∧ t.blank = s.blank := by
  cases change with
  | inl operation =>
    cases operation with
    | add data => exact ⟨h.addCount run, blank_addCount run⟩
    | addCount data n => exact ⟨h.addCount run, blank_addCount run⟩
    | clear =>
      cases run
      exact ⟨h.clear, blank_clear s⟩
  | inr other => exact ⟨h.merge other.2.storable.rectangular run, blank_merge run⟩

def lifecycle (c : Config) : Lifecycle Unit CountMin Change where
  make hasher _ := ofConfig { c with hasher }
  step s change := settled s (s.apply change)
  withHasher := withHasher
  source _ := ()
  clear := clear

/-- The sketch that a configuration asks for, with any hasher. -/
def Config.fresh (c : Config) (hasher : Hasher) : CountMin :=
  empty (widthFor c.epsilon) (depthFor c.delta) c.epsilon.toBits c.delta.toBits hasher

theorem ofConfig_eq_ok {c : Config} (run : ofConfig c = .ok s) :
    c.fresh c.hasher = s ∧ ∀ hasher, ofConfig { c with hasher } = .ok (c.fresh hasher) := by
  obtain ⟨_, valid, run⟩ := bind_eq_ok.mp run
  exact ⟨Except.ok.inj run, fun hasher => bind_eq_ok.mpr ⟨_, valid, rfl⟩⟩

theorem renews (c : Config) : (lifecycle c).Renews := by
  refine Lifecycle.renews_of_blank c.fresh ?make ?choice Rectangular blank ?start ?step ?withHasher ?clear
  case make => exact fun hasher s run => ofConfig_eq_ok run
  case start => exact fun hasher => ⟨empty_rectangular _ _ _ _ _, blank_empty ..⟩
  case step =>
    intro s change good
    exact settled_of (P := fun t => t.Rectangular ∧ t.blank = s.blank) ⟨good, rfl⟩ fun t run => good.apply run
  case withHasher => exact fun s hasher good => ⟨good, rfl⟩
  case choice => exact fun hasher other => rfl
  case clear => exact fun s good => good.clear_eq

end CountMin

namespace HeavyHitters
variable {t u : HeavyHitters}

/-- The tracker of as many items over a sketch of the same shape, without items. -/
def blank (t : HeavyHitters) : HeavyHitters := empty t.sketch.blank t.limit

theorem step_rectangular (h : t.sketch.Rectangular) {operation : Operation} (run : t.step operation = .ok u) :
    u.sketch.Rectangular ∧ u.blank = t.blank := by
  cases operation with
  | add data =>
    obtain ⟨_, added, -, limit, -⟩ := add_eq_ok run
    exact ⟨h.addCount added, by rw [blank, blank, CountMin.blank_addCount added, limit]⟩
  | clear =>
    cases run
    exact ⟨h.clear, congrArg (empty · t.limit) (CountMin.blank_clear t.sketch)⟩

def lifecycle (c : Config) : Lifecycle Unit HeavyHitters Operation where
  make hasher _ := ofConfig { c with hasher }
  step t operation := settled t (t.step operation)
  withHasher := withHasher
  source _ := ()
  clear := clear

/-- The tracker that a configuration asks for, with any hasher. -/
def Config.fresh (c : Config) (hasher : Hasher) : HeavyHitters := empty (c.sketch.fresh hasher) c.limit

theorem ofConfig_eq_ok {c : Config} (run : ofConfig c = .ok t) :
    c.fresh c.hasher = t ∧ ∀ hasher, ofConfig { c with hasher } = .ok (c.fresh hasher) := by
  obtain ⟨_, valid, run⟩ := bind_eq_ok.mp run
  obtain ⟨_, sketch, made⟩ := bind_eq_ok.mp run
  obtain ⟨rfl, remade⟩ := CountMin.ofConfig_eq_ok sketch
  exact ⟨Except.ok.inj made, fun hasher => bind_eq_ok.mpr ⟨_, valid, bind_eq_ok.mpr ⟨_, remade hasher, rfl⟩⟩⟩

theorem renews (c : Config) : (lifecycle c).Renews := by
  refine Lifecycle.renews_of_blank c.fresh ?make ?choice (fun t => t.sketch.Rectangular) blank ?start ?step
    ?withHasher ?clear
  case make => exact fun hasher t run => ofConfig_eq_ok run
  case start =>
    exact fun hasher => ⟨CountMin.empty_rectangular _ _ _ _ _, congrArg (empty · c.limit) (CountMin.blank_empty ..)⟩
  case step =>
    intro t operation good
    exact settled_of (P := fun u => u.sketch.Rectangular ∧ u.blank = t.blank) ⟨good, rfl⟩ fun u run =>
      step_rectangular good run
  case withHasher => exact fun t hasher good => ⟨good, rfl⟩
  case choice => exact fun hasher other => rfl
  case clear => exact fun t good => congrArg (empty · t.limit) good.clear_eq

end HeavyHitters
end Synopsis.Frequency
