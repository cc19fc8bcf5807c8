import Synopsis.Proofs.Hashing.LeadingBytes
import Synopsis.Proofs.Packed.ListedCounters
import Synopsis.Proofs.Presence.UnfailingRequests

/-! How many regions a deletable filter has. Their size is rounded down, so the bits that are left over make up regions
of their own, and there are as many as were asked for only if these divide the bits. Each region has a flag, and there
are runs after which all flags are set. -/
namespace Synopsis.Presence
open Hashing Packed

namespace Layout
variable {m regions : Nat}

theorem regionSize_split (m regions : Nat) : (split (m + regions) regions).regionSize = max 1 (m / regions) := by
  simp only [split, Nat.add_sub_cancel]

theorem regionSize_pos (m regions : Nat) : 0 < (split (m + regions) regions).regionSize := by
  rw [regionSize_split]
  exact Nat.lt_of_lt_of_le Nat.one_pos (le_max_left ..)

/-- There is a flag for each region that begins before the bits end. -/
theorem lt_flags_iff (bits : 0 < m) {region : Nat} : region < (split (m + regions) regions).flags ↔
    region * (split (m + regions) regions).regionSize < m := by
  have counted : (split (m + regions) regions).flags = (m - 1) / (split (m + regions) regions).regionSize + 1 := by
    simp only [split, Nat.add_sub_cancel]
  rw [counted, Nat.lt_succ_iff, Nat.le_div_iff_mul_le (regionSize_pos m regions)]
  omega

theorem image_region (bits : 0 < m) : (Finset.range m).image (· / (split (m + regions) regions).regionSize) =
    Finset.range (split (m + regions) regions).flags := by
  ext region
  rw [Finset.mem_image, Finset.mem_range, lt_flags_iff bits]
  constructor
  · rintro ⟨i, inside, rfl⟩
    exact (Nat.div_mul_le_self ..).trans_lt (Finset.mem_range.mp inside)
  · intro first
    exact ⟨_, Finset.mem_range.mpr first, Nat.mul_div_cancel _ (regionSize_pos m regions)⟩

/-- Bits that are left over begin another region, unless there are fewer bits than regions. -/
theorem flags_le_iff (bits : 0 < m) (wanted : 0 < regions) :
    (split (m + regions) regions).flags ≤ regions ↔ regions ∣ m ∨ m < regions := by
  rw [← not_lt, lt_flags_iff bits, regionSize_split, not_lt]
  by_cases few : m < regions
  · simp only [few, or_true, iff_true]
    exact few.le.trans (Nat.le_mul_of_pos_right regions (Nat.lt_of_lt_of_le Nat.one_pos (le_max_left ..)))
  · rw [max_eq_right (Nat.div_pos (not_lt.mp few) wanted), or_iff_left few]
    constructor
    · exact fun filled => ⟨_, filled.antisymm (Nat.mul_div_le m regions)⟩
    · exact fun even => (Nat.mul_div_cancel' even).ge

theorem regions_le_flags (bits : 0 < m) (wanted : 0 < regions) (enough : regions ≤ m) :
    regions ≤ (split (m + regions) regions).flags := by
  have last : regions - 1 < (split (m + regions) regions).flags := by
    rw [lt_flags_iff bits, regionSize_split, max_eq_right (Nat.div_pos enough wanted)]
    calc (regions - 1) * (m / regions) < regions * (m / regions) :=
          Nat.mul_lt_mul_of_pos_right (Nat.sub_one_lt_of_lt wanted) (Nat.div_pos enough wanted)
      _ ≤ m := Nat.mul_div_le m regions
  omega

theorem flags_eq_iff (bits : 0 < m) (wanted : 0 < regions) :
    (split (m + regions) regions).flags = regions ↔ regions ∣ m := by
  constructor
  · intro same
    refine ((flags_le_iff bits wanted).mp same.le).resolve_right fun few => ?_
    -- with fewer bits than regions each bit is a region of its own
    have missing : m < (split (m + regions) regions).flags := same.symm ▸ few
    rw [lt_flags_iff bits] at missing
    exact absurd missing (not_lt.mpr (Nat.le_mul_of_pos_right m (regionSize_pos m regions)))
  · intro even
    exact ((flags_le_iff bits wanted).mpr (.inl even)).antisymm
      (regions_le_flags bits wanted (Nat.le_of_dvd bits even))

end Layout

namespace DeletableBloom
variable {layout : Layout} {regions : Nat} {start f g : DeletableBloom} {data : ByteArray} {items : List ByteArray}

/-- A filter that splits its bits as a layout does, and has its flags. -/
structure LaidOut (layout : Layout) (regions : Nat) (f : DeletableBloom) : Prop where
  regions : f.regions = regions
  size : f.cells.size = layout.size
  regionSize : f.regionSize = layout.regionSize
  flags : f.collisions.Sound layout.flags 1

section Steps
variable {flags : Nat}

theorem flags_insert (run : f.insert data = .ok g) (sound : f.collisions.Sound flags 1) :
    g.collisions.Sound flags 1 ∧ f.collisions.support ⊆ g.collisions.support := by
  obtain ⟨state, run, made⟩ := bind_eq_ok.mp run
  have kept : state.2.Sound flags 1 ∧ f.collisions.support ⊆ state.2.support := by
    refine foldlM_invariant (P := fun t : Counters × Counters =>
      t.2.Sound flags 1 ∧ f.collisions.support ⊆ t.2.support) (fun s i t step before => ?_)
      ⟨sound, Finset.Subset.refl _⟩ run
    rcases markOrSet_eq_ok step with ⟨-, marked⟩ | ⟨-, same⟩
    · exact ⟨before.1.set marked, before.2.trans ((Counters.set_grows Nat.one_pos).kept marked)⟩
    · exact same ▸ before
  cases made
  exact kept

theorem flags_containsThenErase {member : Bool} (run : f.containsThenErase data = .ok (member, g)) :
    g.collisions = f.collisions := by
  obtain ⟨covered, -, run⟩ := bind_eq_ok.mp run
  cases covered with
  | false =>
    cases run
    rfl
  | true =>
    obtain ⟨cells, -, made⟩ := bind_eq_ok.mp run
    cases made
    rfl

theorem flags_step (f : DeletableBloom) (request : Request) (sound : f.collisions.Sound flags 1) :
    (operations.step f request).2.collisions.Sound flags 1 := by
  apply operations.step_keeps (P := fun f => f.collisions.Sound flags 1)
  case insert => exact fun f data g run before => (flags_insert run before).1
  case inserts => exact fun f _ _ _ => (fused f).insert_eq_ok
  case containsThenErase => exact fun f data member g run before => (flags_containsThenErase run).symm ▸ before
  case clear =>
    intro f before
    change f.collisions.clear.Sound flags 1
    exact before.clear ▸ Counters.zeros_sound flags 1
  case before => exact sound

theorem empty_laidOut (layout : Layout) (regions k : Nat) (hasher : Hasher) :
    LaidOut layout regions (empty layout regions k hasher) := ⟨rfl, rfl, rfl, Counters.zeros_sound _ _⟩

/-- Clearing keeps all but the flags, and a request leaves alone what clearing keeps. -/
theorem LaidOut.step (h : LaidOut layout regions f) (request : Request) :
    LaidOut layout regions (operations.step f request).2 := by
  have blank : (operations.step f request).2.clear.regions = regions ∧
      (operations.step f request).2.clear.cells.size = layout.size ∧
      (operations.step f request).2.clear.regionSize = layout.regionSize := by
    rw [clear_step]
    exact ⟨h.regions, h.size, h.regionSize⟩
  exact ⟨blank.1, blank.2.1, blank.2.2, flags_step f request h.flags⟩

theorem LaidOut.collided_le (h : LaidOut layout regions f) : f.collidedRegions ≤ layout.flags := by
  rw [collidedRegions, h.flags.nonzero, Counters.support, h.flags.size]
  exact (Finset.card_filter_le ..).trans_eq (Finset.card_range _)

end Steps

/-- The flags after the regions of the positions `done` were marked, in a filter that has all its bits still. -/
structure Collided (flags : Nat) (f : DeletableBloom) (done : List Nat) (t : Counters × Counters) : Prop where
  cells : t.1 = f.cells
  sound : t.2.Sound flags 1
  support : t.2.support = f.collisions.support ∪ (done.map (· / f.regionSize)).toFinset

theorem Collided.step {flags : Nat} {done : List Nat} {t : Counters × Counters} (h : Collided flags f done t)
    {i : Nat} (inside : i < f.cells.size) (region : i / f.regionSize < flags) (set : f.cells.read i = 1) :
    ∃ u, markOrSet f.regionSize t i = .ok u ∧ Collided flags f (done ++ [i]) u := by
  obtain ⟨cells, collisions⟩ := t
  obtain ⟨rfl, sound, support⟩ := h
  have place : i / f.regionSize < collisions.size := sound.size.symm ▸ region
  have top : 0 < collisions.max := sound.max_pos Nat.one_pos
  refine ⟨_, markOrSet_of_set inside place set, rfl, sound.write .., ?_⟩
  rw [Counters.support_write place (min_le_right ..) (lt_min Nat.one_pos top), support]
  ext region
  simp

/-- Inserting an item whose bits are set marks the regions that they are in, and no other. -/
theorem insert_of_set {flags : Nat} (sound : f.collisions.Sound flags 1) (addressed : f.Addressed)
    (set : ∀ i ∈ f.positions data, f.cells.read i = 1) : ∃ g, f.insert data = .ok g ∧
      g.collisions.support = f.collisions.support ∪ ((f.positions data).map (· / f.regionSize)).toFinset := by
  obtain ⟨⟨cells, collisions⟩, run, collided⟩ : ∃ t,
      (f.positions data).foldlM (markOrSet f.regionSize) (f.cells, f.collisions) = .ok t ∧
        Collided flags f (f.positions data) t := by
    refine foldlM_keeps ⟨rfl, sound, by simp⟩ fun done i t listed collided => ?_
    have inside := addressed.1 data i listed
    exact collided.step inside (sound.size ▸ addressed.2 i inside) (set i listed)
  refine ⟨{ f with cells, collisions, count := f.count + 1 }, ?_, collided.support⟩
  simp only [DeletableBloom.insert, run]
  rfl

theorem step_insert (run : f.insert data = .ok g) : (operations.step f (.insert data)).2 = g := by
  simp only [Operations.step, operations, run]
  rfl

/-- The first `n` regions have collided, in a filter that holds some items. -/
structure Collides (layout : Layout) (regions : Nat) (start : DeletableBloom) (n : Nat) (f : DeletableBloom) : Prop
    extends LaidOut layout regions f where
  held : ∃ items, Holds start items f
  collided : Finset.range n ⊆ f.collisions.support

/-- A bit is hit twice. -/
def strike (i : Nat) : List (Action Request) := List.replicate 2 (.operation (.insert (Hasher.wordOf i)))

/-- The first bit of each of the first `n` regions is hit twice. -/
def strikes (regionSize n : Nat) : List (Action Request) :=
  (List.range n).flatMap fun region => strike (region * regionSize)

section Strikes
variable {m k n : Nat}

theorem Holds.set_of_mem (h : Holds start items f) (member : data ∈ items) {i : Nat}
    (inside : i < start.cells.size) (hit : i ∈ f.positions data) : f.cells.read i = 1 := by
  rw [h.positions] at hit
  have set : i ∈ f.cells.support := h.support ▸ hits_subset member (List.mem_toFinset.mpr hit)
  rw [h.sound.bit inside, if_pos set]

/-- The first insertion sets the bit if it was not set, and then the second marks its region. -/
theorem Collides.next (h : Collides layout regions start n f) (leading : start.hasher = .leadingBytes)
    (hashes : 0 < start.hashes) (small : start.cells.size ≤ UInt32.size)
    (inside : n * layout.regionSize < start.cells.size) (wide : 0 < layout.regionSize) :
    Collides layout regions start (n + 1) ((shaped m regions k).run f (strike (n * layout.regionSize))) := by
  obtain ⟨items, held⟩ := h.held
  have bits : 0 < start.cells.size := Nat.zero_lt_of_lt inside
  obtain ⟨g, first, holds⟩ := (represents start bits).insert held (Hasher.wordOf (n * layout.regionSize))
  have laidOut : LaidOut layout regions g := step_insert first ▸ h.toLaidOut.step _
  have positions : g.positions (Hasher.wordOf (n * layout.regionSize)) =
      List.replicate start.hashes (n * layout.regionSize) := by
    rw [holds.positions, DeletableBloom.positions, DeletableBloom.size, leading,
      Hasher.positions_wordOf (inside.trans_le small), Nat.mod_eq_of_lt inside]
  have places : 0 < g.cells.size := holds.sound.size.symm ▸ bits
  have addressed : g.Addressed := ⟨positions_lt places, holds.sound.size.symm ▸ holds.regions⟩
  obtain ⟨e, second, more⟩ := (represents start bits).insert holds (Hasher.wordOf (n * layout.regionSize))
  obtain ⟨_, again, marked⟩ := insert_of_set laidOut.flags addressed fun i hit =>
    holds.set_of_mem (List.mem_append_right _ (List.mem_singleton_self _))
      (holds.sound.size ▸ positions_lt places _ i hit) hit
  cases again.symm.trans second
  have run : (shaped m regions k).run f (strike (n * layout.regionSize)) = e := by
    change (operations.step (operations.step f _).2 _).2 = e
    rw [step_insert first, step_insert second]
  rw [run]
  refine ⟨step_insert second ▸ laidOut.step _, ⟨_, more⟩, ?_⟩
  rw [Finset.range_add_one, Finset.insert_subset_iff, marked]
  constructor
  · rw [positions, laidOut.regionSize, List.map_replicate, Nat.mul_div_cancel _ wide]
    exact Finset.mem_union_right _ (List.mem_toFinset.mpr (List.mem_replicate.mpr ⟨hashes.ne', rfl⟩))
  · exact (h.collided.trans (flags_insert first h.flags).2).trans Finset.subset_union_left

theorem run_collides (bits : 0 < m) (regions : Nat) (hashes : 0 < k) (small : m ≤ UInt32.size)
    (few : n ≤ (Layout.split (m + regions) regions).flags) :
    let layout := Layout.split (m + regions) regions
    let start := empty layout regions k .leadingBytes
    Collides layout regions start n ((shaped m regions k).run start (strikes layout.regionSize n)) := by
  intro layout start
  have size : start.cells.size = m := Nat.add_sub_cancel m regions
  induction n with
  | zero => exact ⟨empty_laidOut .., ⟨_, empty_holds m regions k .leadingBytes⟩, Finset.empty_subset _⟩
  | succ n ih =>
    have inside : n * layout.regionSize < start.cells.size := size.symm ▸ (Layout.lt_flags_iff bits).mp few
    have run : (shaped m regions k).run start (strikes layout.regionSize (n + 1)) =
        (shaped m regions k).run ((shaped m regions k).run start (strikes layout.regionSize n))
          (strike (n * layout.regionSize)) := by
      simp only [Lifecycle.run, strikes, List.range_succ, List.flatMap_append, List.flatMap_singleton,
        List.foldl_append]
    rw [run]
    exact (ih (Nat.le_of_lt few)).next rfl hashes (size.symm ▸ small) inside (Layout.regionSize_pos m regions)

/-- All regions can have collided. -/
theorem exists_all_collided (bits : 0 < m) (regions : Nat) (hashes : 0 < k) (small : m ≤ UInt32.size) :
    let layout := Layout.split (m + regions) regions
    let start := empty layout regions k .leadingBytes
    ∃ actions, layout.flags ≤ ((shaped m regions k).run start actions).collidedRegions := by
  intro layout start
  have collides := run_collides bits regions hashes small le_rfl
  refine ⟨strikes layout.regionSize layout.flags, ?_⟩
  rw [collidedRegions, collides.flags.nonzero]
  exact (Finset.card_range _).symm.trans_le (Finset.card_le_card collides.collided)

theorem always_laidOut (m regions k : Nat) :
    (shaped m regions k).Always (LaidOut (.split (m + regions) regions) regions) := by
  refine Lifecycle.always_of_invariant ?_ (fun f request h => h.step request)
    (fun f hasher h => ⟨h.regions, h.size, h.regionSize, h.flags⟩) fun f h => h
  rintro hasher _ _ ⟨⟩
  exact empty_laidOut ..

end Strikes

/-- The regions that bits are in are numbered without a gap, and each has its flag. There are as many as were asked for,
and bits and flags come to what the filter was sized for, if and only if those asked for divide the bits that remain for
the items. If they do, or are more than these bits, never do more regions collide than were asked for. Otherwise there
is a region more, or there are several, and all of them can have collided. -/
theorem flags_are_regions_iff_divides {m regions : Nat} (bits : 0 < m) (wanted : 0 < regions) (k : Nat) :
    let layout := Layout.split (m + regions) regions
    (∀ c f, ofConfig c = .ok f → 0 < c.regions ∧
      ∃ m, 0 < m ∧ optimalCells c.capacity c.falsePositiveRate = m + c.regions ∧
        f = empty (.split (m + c.regions) c.regions) c.regions (optimalHashes c.falsePositiveRate) c.hasher) ∧
    layout.size = m ∧
    (Finset.range m).image (· / layout.regionSize) = Finset.range layout.flags ∧
    (layout.flags = regions ↔ regions ∣ m) ∧
    (layout.size + layout.flags = m + regions ↔ regions ∣ m) ∧
    (shaped m regions k).Always (LaidOut layout regions) ∧
    (shaped m regions k).Always (fun f => f.collidedRegions ≤ layout.flags) ∧
    (regions ∣ m ∨ m < regions → (shaped m regions k).Always fun f => f.collidedRegions ≤ f.regions) ∧
    (0 < k → m ≤ UInt32.size → (shaped m regions k).Always (fun f => f.collidedRegions ≤ f.regions) →
      regions ∣ m ∨ m < regions) := by
  intro layout
  have size : layout.size = m := Nat.add_sub_cancel m regions
  have always := always_laidOut m regions k
  refine ⟨fun c f => ofConfig_eq_ok, size, Layout.image_region bits, Layout.flags_eq_iff bits wanted, ?_, always, ?_,
    ?_, ?_⟩
  · rw [size, Nat.add_left_cancel_iff]
    exact Layout.flags_eq_iff bits wanted
  · exact fun hasher source f made actions => (always hasher source f made actions).collided_le
  · intro even hasher source f made actions
    have laidOut := always hasher source f made actions
    exact laidOut.regions.symm ▸ laidOut.collided_le.trans ((Layout.flags_le_iff bits wanted).mpr even)
  · intro hashes small bounded
    obtain ⟨actions, all⟩ := exists_all_collided bits regions hashes small
    refine (Layout.flags_le_iff bits wanted).mp (all.trans ?_)
    exact (bounded .leadingBytes () _ rfl actions).trans_eq (always .leadingBytes () _ rfl actions).regions

/-- The filter that the default configuration comes to. -/
example : Layout.split 9585059 100 = ⟨9584959, 95849, 101⟩ := rfl

/-- Two bits are left over from three regions of one. -/
theorem leftover_bits_are_regions :
    let layout := Layout.split (5 + 3) 3
    layout = ⟨5, 1, 5⟩ ∧ layout.flags ≠ 3 ∧ layout.size + layout.flags ≠ 5 + 3 ∧
    ¬(DeletableBloom.shaped 5 3 1).Always (fun f => f.collidedRegions ≤ f.regions) ∧
    (Layout.split (6 + 3) 3).flags = 3 ∧
    (DeletableBloom.shaped 6 3 1).Always (fun f => f.collidedRegions ≤ f.regions) := by
  obtain ⟨-, -, -, uneven, whole, -, -, -, bounded⟩ :=
    flags_are_regions_iff_divides (by decide : 0 < 5) (by decide : 0 < 3) 1
  obtain ⟨-, -, -, even, -, -, -, bound, -⟩ :=
    flags_are_regions_iff_divides (by decide : 0 < 6) (by decide : 0 < 3) 1
  exact ⟨rfl, uneven.not.mpr (by decide), whole.not.mpr (by decide),
    fun always => absurd (bounded (by decide) (by decide) always) (by decide), even.mpr (by decide),
    bound (.inl (by decide))⟩

/-- The bits of a filter that was to have three regions, each hit twice. -/
theorem more_regions_collide :
    let start := empty (.split (5 + 3) 3) 3 1 .leadingBytes
    let f := (shaped 5 3 1).run start (strikes 1 5)
    start.regions = 3 ∧ start.collisions.size = 5 ∧ start.size + start.collisions.size = 10 ∧
    f.regions = 3 ∧ f.collidedRegions = 5 := by
  exact ⟨rfl, rfl, rfl, rfl, rfl⟩

end DeletableBloom
end Synopsis.Presence
