import Synopsis.Proofs.Hashing.LeadingBytes
import Synopsis.Proofs.Presence.CuckooRelocation
import Synopsis.Proofs.Presence.Requests

/-! While no insertion fails, a cuckoo filter is a multiset of classes: it gives the answers that the
multiset gives, whatever the relocations were. -/
namespace Synopsis.Presence.Cuckoo
open Hashing Randomness

variable {σ : Type}

def step [Source σ] (t : Cuckoo σ) : Request → Answer × Cuckoo σ
  | .insert data => ((t.insert data).1.map fun () => none, (t.insert data).2)
  | .contains data => ((t.contains data).map some, t)
  | .containsThenInsert data =>
    ((t.containsThenInsert data).1.map some, (t.containsThenInsert data).2)
  | .containsThenErase data =>
    settle t ((t.containsThenErase data).map fun (member, u) => (some member, u))
  | .clear => (.ok none, t.clear)

/-- A multiset that serves the same requests, exactly and without failures. -/
def bagStep (classOf : ByteArray → Class) (bag : Multiset Class) :
    Request → Answer × Multiset Class
  | .insert data => (.ok none, bag + {classOf data})
  | .contains data => (.ok (some (classOf data ∈ bag)), bag)
  | .containsThenInsert data =>
    (.ok (some (classOf data ∈ bag)), if classOf data ∈ bag then bag else bag + {classOf data})
  | .containsThenErase data => (.ok (some (classOf data ∈ bag)), bag.erase (classOf data))
  | .clear => (.ok none, 0)

/-- Not the failure of a relocation that gave up. -/
def Unfailing (answer : Answer) : Prop := ∀ kicks, answer ≠ .error (.full kicks)

theorem unfailing_of_answers {log : List Event} {answers : List (Option Bool)}
    (given : log.map (·.2) = answers.map .ok) : ∀ event ∈ log, Unfailing event.2 := by
  intro event member kicks failed
  have answered : event.2 ∈ answers.map .ok := given ▸ List.mem_map_of_mem member
  obtain ⟨answer, -, same⟩ := List.mem_map.mp answered
  cases same.trans failed

/-- The table keeps its classes and holds exactly the bag. -/
structure Holds (classOf : ByteArray → Class) (t : Cuckoo σ) (bag : Multiset Class) : Prop where
  sound : Sound t
  classes : t.classOf = classOf
  stored : t.stored = bag

private theorem insert_holds [Source σ] {classOf : ByteArray → Class} {t : Cuckoo σ}
    {bag : Multiset Class} (h : Holds classOf t bag) (data : ByteArray)
    (unfailing : ∀ kicks, (t.insert data).1 ≠ .error (.full kicks)) :
    (t.insert data).1 = .ok () ∧ Holds classOf (t.insert data).2 (bag + {classOf data}) := by
  have stores := insert_stores h.sound data
  have sound := stores.sound h.sound
  generalize (t.insert data).1 = outcome at stores unfailing ⊢
  generalize (t.insert data).2 = u at stores sound ⊢
  cases stores with
  | kept shape stored count =>
    exact ⟨rfl, sound, shape.classOf.trans h.classes, by rw [stored, h.stored, h.classes]⟩
  | dropped lost shape stored count => exact absurd rfl (unfailing t.maxKicks)

theorem clear_holds {classOf : ByteArray → Class} {t : Cuckoo σ} {bag : Multiset Class}
    (h : Holds classOf t bag) : Holds classOf t.clear 0 := by
  have none_stored : t.clear.stored = 0 := stored_replicate_none rfl
  refine ⟨⟨h.sound.buckets, Array.size_replicate, ?_⟩, h.classes, none_stored⟩
  rw [none_stored]
  rfl

theorem step_agrees [Source σ] {classOf : ByteArray → Class} (t : Cuckoo σ) (bag : Multiset Class)
    (request : Request) (h : Holds classOf t bag) (unfailing : Unfailing (t.step request).1) :
    (t.step request).1 = (bagStep classOf bag request).1 ∧
      Holds classOf (t.step request).2 (bagStep classOf bag request).2 := by
  have test (data : ByteArray) : t.contains data = .ok (decide (classOf data ∈ bag)) := by
    rw [contains_eq h.sound, h.classes, h.stored]
  cases request with
  | insert data =>
    obtain ⟨succeeds, holds⟩ := insert_holds h data fun kicks bad =>
      unfailing kicks (by simp only [step, bad]; rfl)
    simp only [step, bagStep, succeeds]
    exact ⟨rfl, holds⟩
  | contains data =>
    simp only [step, bagStep, test]
    exact ⟨rfl, h⟩
  | containsThenInsert data =>
    by_cases member : classOf data ∈ bag
    · simp only [step, bagStep, containsThenInsert, test, member, decide_true, if_true]
      exact ⟨rfl, h⟩
    · simp only [step, containsThenInsert, test, member, decide_false] at unfailing
      obtain ⟨succeeds, holds⟩ := insert_holds h data fun kicks bad =>
        unfailing kicks (by rw [bad]; rfl)
      simp only [step, bagStep, containsThenInsert, test, member, decide_false, if_false, succeeds]
      exact ⟨rfl, holds⟩
  | containsThenErase data =>
    obtain ⟨u, answer, sound, shape, stored⟩ := containsThenErase_eq h.sound data
    rw [h.classes, h.stored] at answer stored
    simp only [step, bagStep, answer]
    exact ⟨rfl, sound, shape.classOf.trans h.classes, stored⟩
  | clear => exact ⟨rfl, clear_holds h⟩

/-- Erasures do not relocate, so none gives up. -/
private theorem erasures_unfailing [Source σ] {classOf : ByteArray → Class} {t : Cuckoo σ}
    {bag : Multiset Class} (h : Holds classOf t bag) (data : ByteArray) (j : Nat) :
    ∀ event ∈ (serve step t (List.replicate j (.containsThenErase data))).1, Unfailing event.2 := by
  induction j generalizing t bag with
  | zero => exact fun _ member => by cases member
  | succ j ih =>
    obtain ⟨u, answer, -⟩ := containsThenErase_eq h.sound data
    have first : Unfailing (t.step (.containsThenErase data)).1 := by
      rw [step, answer]
      exact fun _ bad => by cases bad
    obtain ⟨-, next⟩ := step_agrees t bag (.containsThenErase data) h first
    exact List.forall_mem_cons.mpr ⟨first, ih next⟩

/-- A copy of the class was stored. -/
def stores (classOf : ByteArray → Class) (c : Class) : Event → Bool
  | (.insert data, .ok _) => classOf data = c
  | (.containsThenInsert data, .ok (some false)) => classOf data = c
  | _ => false

/-- A copy of the class was taken out. -/
def takes (classOf : ByteArray → Class) (c : Class) : Event → Bool
  | (.containsThenErase data, .ok (some true)) => classOf data = c
  | _ => false

section Bag
variable (classOf : ByteArray → Class)

private theorem bagStep_count (bag : Multiset Class) (request : Request) (c : Class)
    (h : request ≠ .clear) :
    let event := (request, (bagStep classOf bag request).1)
    (stores classOf c event).toNat + bag.count c =
      (takes classOf c event).toNat + (bagStep classOf bag request).2.count c := by
  cases request with
  | clear => exact absurd rfl h
  | contains data => rfl
  | insert data =>
    by_cases same : classOf data = c
    · subst same
      simp [bagStep, stores, takes, Nat.add_comm]
    · simp [bagStep, stores, takes, same, Ne.symm same]
  | containsThenInsert data =>
    by_cases member : classOf data ∈ bag
    · simp [bagStep, stores, takes, member]
    · by_cases same : classOf data = c
      · subst same
        simp [bagStep, stores, takes, member]
      · simp [bagStep, stores, takes, member, same, Ne.symm same]
  | containsThenErase data =>
    by_cases member : classOf data ∈ bag
    · by_cases same : classOf data = c
      · subst same
        have pos := Multiset.count_pos.mpr member
        simp only [bagStep, stores, takes, member, decide_true, Multiset.count_erase_self]
        simp only [Bool.toNat_false, Bool.toNat_true]
        omega
      · simp [bagStep, stores, takes, member, same, Multiset.count_erase_of_ne (Ne.symm same)]
    · simp [bagStep, stores, takes, member]

/-- The bag is the history: its copies are those stored and not taken since it was last emptied. -/
theorem bag_count (requests : List Request) (c : Class) :
    let run := serve (bagStep classOf) 0 requests
    (sinceClear run.1).countP (stores classOf c) =
      (sinceClear run.1).countP (takes classOf c) + run.2.count c := by
  refine serve_induction (P := fun log (bag : Multiset Class) =>
    (sinceClear log).countP (stores classOf c) =
      (sinceClear log).countP (takes classOf c) + bag.count c) rfl ?_ requests
  intro log bag request ih
  rw [sinceClear_concat]
  by_cases h : request = .clear
  · subst h
    rfl
  · have one := bagStep_count classOf bag request c h
    simp only [h, if_false, List.countP_append, List.countP_singleton] at one ⊢
    simp only [Bool.toNat, Bool.cond_eq_ite] at one
    omega

/-- Erasures of held items alone keep the bag the image of the items held. -/
theorem bag_eq_live (requests : List Request)
    (sparing : Sparing false (serve (bagStep classOf) 0 requests).1) :
    (serve (bagStep classOf) 0 requests).2 =
      (live false (serve (bagStep classOf) 0 requests).1).map classOf := by
  revert sparing
  refine serve_induction (P := fun log bag => Sparing false log →
    bag = (live false log).map classOf) (fun _ => rfl) ?_ requests
  intro log bag request ih sparing
  have h := ih sparing.before
  rw [live_concat]
  cases request with
  | clear => rfl
  | insert data => simp [bagStep, retain, h, Multiset.add_comm]
  | contains data => simp [bagStep, retain, h]
  | containsThenInsert data =>
    by_cases member : classOf data ∈ bag
    · simp [bagStep, retain, member, ← h]
    · simp only [bagStep, retain, member, decide_false, if_false, Bool.false_and, Bool.false_eq_true]
      rw [h, Multiset.map_cons, Multiset.add_comm, Multiset.singleton_add]
  | containsThenErase data =>
    by_cases member : classOf data ∈ bag
    · simp only [bagStep, member, decide_true] at sparing ⊢
      rw [h]
      exact (Multiset.map_erase_of_mem classOf _ sparing.last).symm
    · simp [bagStep, retain, member, ← h]

theorem bag_inserts (bag : Multiset Class) (data : ByteArray) (k : Nat) :
    (serve (bagStep classOf) bag (List.replicate k (.insert data))).2 =
      bag + Multiset.replicate k (classOf data) := by
  induction k generalizing bag with
  | zero => exact (add_zero bag).symm
  | succ k ih =>
    rw [List.replicate_succ, serve, bagStep, ih, Multiset.replicate_succ, ← Multiset.singleton_add,
      add_assoc]

theorem bag_erasures (bag : Multiset Class) (data : ByteArray) {j k : Nat} (h : j ≤ k) :
    serve (bagStep classOf) (bag + Multiset.replicate k (classOf data))
      (List.replicate j (.containsThenErase data)) =
        (List.replicate j (.containsThenErase data, .ok (some true)),
          bag + Multiset.replicate (k - j) (classOf data)) := by
  induction j generalizing k with
  | zero => rfl
  | succ j ih =>
    obtain ⟨k, rfl⟩ : ∃ n, k = n + 1 := ⟨k - 1, by omega⟩
    have member : classOf data ∈ bag + Multiset.replicate (k + 1) (classOf data) := by simp
    have taken : (bag + Multiset.replicate (k + 1) (classOf data)).erase (classOf data) =
        bag + Multiset.replicate k (classOf data) := by
      rw [Multiset.replicate_succ, Multiset.add_cons, Multiset.erase_cons_head]
    rw [List.replicate_succ, serve]
    simp only [bagStep, member, decide_true, taken, ih (Nat.le_of_succ_le_succ h)]
    rw [Nat.succ_sub_succ, List.replicate_succ]

end Bag

theorem empty_holds (bits fingerprintSize capacity maxKicks : Nat) (hasher : Hasher) (source : σ) :
    Holds (empty (2 ^ bits) fingerprintSize capacity maxKicks hasher source).classOf
      (empty (2 ^ bits) fingerprintSize capacity maxKicks hasher source) 0 := by
  have none_stored : (empty (2 ^ bits) fingerprintSize capacity maxKicks hasher source).stored = 0 :=
    stored_replicate_none rfl
  exact ⟨⟨⟨bits, rfl⟩, Array.size_replicate, by rw [none_stored]; rfl⟩, rfl, none_stored⟩

/-- A run without failed insertions is a run of the bag of classes, in its answers, its content and its
count. So the history decides every test: an item is contained just if more copies of its class were
stored than taken. Erasures of held items alone leave every held item contained, and of `k` insertions of
an item each erasure undoes one, until the content is the old one. -/
theorem unfailing_run_is_bag [Source σ] (bits fingerprintSize capacity maxKicks : Nat)
    (hasher : Hasher) (source : σ) (requests : List Request)
    (unfailing : ∀ event ∈
      (serve step (empty (2 ^ bits) fingerprintSize capacity maxKicks hasher source) requests).1,
      Unfailing event.2) :
    let start := empty (2 ^ bits) fingerprintSize capacity maxKicks hasher source
    let log := (serve step start requests).1
    let table := (serve step start requests).2
    let bag := (serve (bagStep start.classOf) 0 requests).2
    log = (serve (bagStep start.classOf) 0 requests).1 ∧
    table.stored = bag ∧ table.count = bag.card ∧
    (∀ data, table.contains data = .ok (decide (start.classOf data ∈ bag))) ∧
    (∀ data, table.contains data = .ok (decide
      ((sinceClear log).countP (takes start.classOf (start.classOf data)) <
        (sinceClear log).countP (stores start.classOf (start.classOf data))))) ∧
    (Sparing false log → ∀ data ∈ live false log, table.contains data = .ok true) ∧
    ∀ data j k, j ≤ k →
      let added := serve step table (List.replicate k (.insert data))
      (∀ event ∈ added.1, Unfailing event.2) →
      let taken := serve step added.2 (List.replicate j (.containsThenErase data))
      taken.1 = List.replicate j (.containsThenErase data, .ok (some true)) ∧
        taken.2.stored = bag + Multiset.replicate (k - j) (start.classOf data) := by
  intro start log table bag
  have simulate {t : Cuckoo σ} {held : Multiset Class} (h : Holds start.classOf t held)
      (more : List Request) (ok : ∀ event ∈ (serve step t more).1, Unfailing event.2) :=
    serve_simulates step_agrees h more ok
  obtain ⟨logs, holds⟩ := simulate (t := start) (empty_holds ..) requests unfailing
  have test (data : ByteArray) : table.contains data = .ok (decide (start.classOf data ∈ bag)) := by
    rw [contains_eq holds.sound, holds.classes, holds.stored]
  refine ⟨logs, holds.stored, by rw [holds.sound.count, holds.stored], test, ?_, ?_, ?_⟩
  · intro data
    have history := bag_count start.classOf requests (start.classOf data)
    rw [test]
    refine congrArg Except.ok (decide_eq_decide.mpr ?_)
    simp only [← logs] at history
    simp only [← Multiset.count_pos, bag, log]
    omega
  · intro sparing data held
    have image := bag_eq_live start.classOf requests (logs ▸ sparing)
    have member : start.classOf data ∈ bag := by
      simp only [bag, image, ← logs]
      exact Multiset.mem_map_of_mem _ held
    rw [test, decide_eq_true member]
  · intro data j k h added ok taken
    obtain ⟨-, grown⟩ := simulate holds _ ok
    obtain ⟨answers, shrunk⟩ := simulate grown _ (erasures_unfailing grown data j)
    rw [bag_inserts, bag_erasures _ _ _ h] at answers shrunk
    exact ⟨answers, shrunk.stored⟩

private def zeros : ChaCha.Stream := ⟨.replicate 8 0, [0, 0, 0], 0⟩

private def pair : Cuckoo ChaCha.Stream := empty (2 ^ 1) 1 8 5 .leadingBytes zeros

/-- The fifth insertion finds its bucket full and evicts the first fingerprint to the other one. -/
private def crowding : List Request :=
  [.insert (Hasher.dataOf 0 1), .insert (Hasher.dataOf 0 2), .insert (Hasher.dataOf 0 4),
    .insert (Hasher.dataOf 0 6), .insert (Hasher.dataOf 0 8)]

theorem evicted_copy_stays_in_bag :
    (∀ event ∈ (serve step pair crowding).1, Unfailing event.2) ∧
      (serve step pair crowding).2.slots[4]? = some (some ⟨#[1]⟩) ∧
      (serve step pair crowding).2.count = 5 ∧
      (serve step pair crowding).2.stored = (serve (bagStep pair.classOf) 0 crowding).2 ∧
      (serve step pair crowding).2.contains (Hasher.dataOf 0 1) = .ok true := by
  have answers : (serve step pair crowding).1.map (·.2) = (List.replicate 5 none).map .ok := rfl
  have unfailing := unfailing_of_answers answers
  obtain ⟨-, stored, count, -, history, -⟩ :=
    unfailing_run_is_bag 1 1 8 5 .leadingBytes zeros crowding unfailing
  exact ⟨unfailing, rfl, rfl, stored, (history (Hasher.dataOf 0 1)).trans rfl⟩

/-- An item of the class of `dataOf 0 1`, from which it differs after the fingerprint. -/
private def namesake : ByteArray := ⟨#[0, 0, 0, 0, 1, 7]⟩

/-- Erasing an item that was never inserted takes the copy of another one, which then is not contained although it was
inserted and never erased. -/
theorem erasure_takes_copy_of_other_item :
    let requests : List Request := [.insert (Hasher.dataOf 0 1), .containsThenErase namesake]
    (∀ event ∈ (serve step pair requests).1, Unfailing event.2) ∧
      requests.count (.containsThenErase (Hasher.dataOf 0 1)) < requests.count (.insert (Hasher.dataOf 0 1)) ∧
      pair.classOf namesake = pair.classOf (Hasher.dataOf 0 1) ∧
      (serve step pair requests).2.contains (Hasher.dataOf 0 1) = .ok false := by
  intro requests
  have answers : (serve step pair requests).1.map (·.2) = [none, some true].map .ok := rfl
  have unfailing := unfailing_of_answers answers
  have missing : (serve step pair requests).2.contains (Hasher.dataOf 0 1) = .ok false := by cbv
  have different : namesake ≠ Hasher.dataOf 0 1 := fun same => absurd (congrArg ByteArray.size same) (by decide)
  have never : requests.count (.containsThenErase (Hasher.dataOf 0 1)) = 0 := by
    apply List.count_eq_zero.mpr
    simp [requests, different.symm]
  have once : requests.count (.insert (Hasher.dataOf 0 1)) = 1 := by simp [requests]
  exact ⟨unfailing, by omega, rfl, missing⟩

end Synopsis.Presence.Cuckoo
