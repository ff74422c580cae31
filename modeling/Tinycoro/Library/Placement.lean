import Tinycoro.Library.Update
import Mathlib.Data.Finset.Card
import Mathlib.Data.Set.Insert
import Mathlib.Logic.Function.Basic

/-! Members of a set, each in exactly one place: somewhere in a queue or in one of
a family of slots. The operations move a member between the two, bring one in or
take one out. Where the queue may fail to grow, a member can be lost on the way;
those that are left are still in one place each. -/
namespace Placement

variable {ι α : Type*}

structure Placed (slots : ι → Option α) (queue : List α) (members : Set α) : Prop where
  nodup : queue.Nodup
  apart : ∀ {i a}, slots i = some a → a ∉ queue
  single : ∀ {i j a}, slots i = some a → slots j = some a → i = j
  mem_iff : ∀ {a}, a ∈ members ↔ a ∈ queue ∨ ∃ i, slots i = some a

namespace Placed

variable {slots : ι → Option α} {queue : List α} {members : Set α} {a : α} {i : ι}

theorem empty : Placed (fun _ : ι => none) ([] : List α) ∅ where
  nodup := List.nodup_nil
  apart h := nomatch h
  single h := nomatch h
  mem_iff := by simp

theorem not_mem_queue (h : Placed slots queue members) (hNew : a ∉ members) : a ∉ queue :=
  fun hMem => hNew (h.mem_iff.mpr (.inl hMem))

theorem not_mem_slots (h : Placed slots queue members) (hNew : a ∉ members) (i : ι) :
    slots i ≠ some a :=
  fun hSlot => hNew (h.mem_iff.mpr (.inr ⟨i, hSlot⟩))

theorem mem_of_slot (h : Placed slots queue members) (hSlot : slots i = some a) : a ∈ members :=
  h.mem_iff.mpr (.inr ⟨i, hSlot⟩)

/-- A new member joins the queue. -/
theorem enqueue (h : Placed slots queue members) (hNew : a ∉ members) :
    Placed slots (queue ++ [a]) (insert a members) where
  nodup := List.nodup_append.mpr ⟨h.nodup, List.nodup_singleton a, by
    rintro x hx y hy rfl
    exact h.not_mem_queue hNew (List.mem_singleton.mp hy ▸ hx)⟩
  apart := by
    intro i x hSlot hMem
    rcases List.mem_append.mp hMem with hQueue | hLast
    · exact h.apart hSlot hQueue
    · exact h.not_mem_slots hNew i (List.mem_singleton.mp hLast ▸ hSlot)
  single := h.single
  mem_iff := by
    intro x
    rw [Set.mem_insert_iff, h.mem_iff, List.mem_append, List.mem_singleton]
    tauto

/-- The member in front leaves. -/
theorem dequeue (h : Placed slots (a :: queue) members) : Placed slots queue (members \ {a}) where
  nodup := (List.nodup_cons.mp h.nodup).2
  apart hSlot hMem := h.apart hSlot (List.mem_cons_of_mem a hMem)
  single := h.single
  mem_iff := by
    intro x
    have hFront := (List.nodup_cons.mp h.nodup).1
    rw [Set.mem_sdiff, h.mem_iff, Set.mem_singleton_iff, List.mem_cons]
    constructor
    · rintro ⟨(hEq | hQueue) | hSlot, hNe⟩
      · exact absurd hEq hNe
      · exact .inl hQueue
      · exact .inr hSlot
    · rintro (hQueue | ⟨i, hSlot⟩)
      · exact ⟨.inl (.inr hQueue), fun hEq => hFront (hEq ▸ hQueue)⟩
      · exact ⟨.inr ⟨i, hSlot⟩, fun hEq => h.apart hSlot (hEq ▸ List.mem_cons_self)⟩

/-- Counted over the queue and all slots in use, a member occurs once and nothing
else occurs. -/
theorem occurrences [DecidableEq α] (h : Placed slots queue members) (used : Finset ι)
    (hUsed : ∀ {i a}, slots i = some a → i ∈ used) [Decidable (a ∈ members)] :
    queue.count a + (used.filter (fun i => slots i = some a)).card =
      if a ∈ members then 1 else 0 := by
  by_cases hQueue : a ∈ queue
  · have hSlots : used.filter (fun i => slots i = some a) = ∅ :=
      Finset.filter_eq_empty_iff.mpr (fun _ _ hSlot => h.apart hSlot hQueue)
    rw [hSlots, List.count_eq_one_of_mem h.nodup hQueue, if_pos (h.mem_iff.mpr (.inl hQueue))]
    rfl
  · rw [List.count_eq_zero_of_not_mem hQueue, Nat.zero_add]
    by_cases hMember : a ∈ members
    · obtain ⟨i, hSlot⟩ := (h.mem_iff.mp hMember).resolve_left hQueue
      rw [if_pos hMember, Finset.card_eq_one]
      refine ⟨i, Finset.ext fun j => ?_⟩
      rw [Finset.mem_filter, Finset.mem_singleton]
      exact ⟨fun hj => h.single hj.2 hSlot, fun hEq => hEq ▸ ⟨hUsed hSlot, hSlot⟩⟩
    · rw [if_neg hMember, Finset.card_eq_zero]
      exact Finset.filter_eq_empty_iff.mpr (fun _ _ hSlot => h.not_mem_slots hMember _ hSlot)

variable [DecidableEq ι]

/-- A new member takes an empty slot. -/
theorem fill (h : Placed slots queue members) (hFree : slots i = none) (hNew : a ∉ members) :
    Placed (Function.update slots i (some a)) queue (insert a members) where
  nodup := h.nodup
  apart := by
    intro j x hSlot
    by_cases hEq : j = i
    · subst hEq
      rw [Function.update_self] at hSlot
      exact Option.some.inj hSlot ▸ h.not_mem_queue hNew
    · rw [Function.update_of_ne hEq] at hSlot
      exact h.apart hSlot
  single := by
    intro j k x hj hk
    by_cases hJ : j = i <;> by_cases hK : k = i
    · rw [hJ, hK]
    · rw [hJ, Function.update_self] at hj
      rw [Function.update_of_ne hK] at hk
      exact absurd (hj ▸ hk) (h.not_mem_slots hNew k)
    · rw [hK, Function.update_self] at hk
      rw [Function.update_of_ne hJ] at hj
      exact absurd (hk ▸ hj) (h.not_mem_slots hNew j)
    · rw [Function.update_of_ne hJ] at hj
      rw [Function.update_of_ne hK] at hk
      exact h.single hj hk
  mem_iff := by
    intro x
    rw [Set.mem_insert_iff, h.mem_iff]
    constructor
    · rintro (rfl | hQueue | ⟨j, hSlot⟩)
      · exact .inr ⟨i, Function.update_self ..⟩
      · exact .inl hQueue
      · refine .inr ⟨j, ?_⟩
        rw [Function.update_of_ne]
        · exact hSlot
        · rintro rfl
          rw [hFree] at hSlot
          cases hSlot
    · rintro (hQueue | ⟨j, hSlot⟩)
      · exact .inr (.inl hQueue)
      · by_cases hEq : j = i
        · rw [hEq, Function.update_self] at hSlot
          exact .inl (Option.some.inj hSlot).symm
        · rw [Function.update_of_ne hEq] at hSlot
          exact .inr (.inr ⟨j, hSlot⟩)

/-- A member moves from its slot to the end of the queue. -/
theorem fire (h : Placed slots queue members) (hSlot : slots i = some a) :
    Placed (Function.update slots i none) (queue ++ [a]) members where
  nodup := List.nodup_append.mpr ⟨h.nodup, List.nodup_singleton a, by
    rintro x hx y hy rfl
    exact h.apart hSlot (List.mem_singleton.mp hy ▸ hx)⟩
  apart := by
    intro j x hj hMem
    obtain ⟨hEq, hj⟩ := Update.of_none hj
    rcases List.mem_append.mp hMem with hQueue | hLast
    · exact h.apart hj hQueue
    · exact hEq (h.single hj (List.mem_singleton.mp hLast ▸ hSlot))
  single := by
    intro j k x hj hk
    by_cases hJ : j = i
    · rw [hJ, Function.update_self] at hj
      cases hj
    · by_cases hK : k = i
      · rw [hK, Function.update_self] at hk
        cases hk
      · rw [Function.update_of_ne hJ] at hj
        rw [Function.update_of_ne hK] at hk
        exact h.single hj hk
  mem_iff := by
    intro x
    rw [h.mem_iff, List.mem_append, List.mem_singleton]
    constructor
    · rintro (hQueue | ⟨j, hj⟩)
      · exact .inl (.inl hQueue)
      · by_cases hEq : j = i
        · rw [hEq, hSlot] at hj
          exact .inl (.inr (Option.some.inj hj).symm)
        · exact .inr ⟨j, (Function.update_of_ne hEq ..).trans hj⟩
    · rintro ((hQueue | rfl) | ⟨j, hj⟩)
      · exact .inl hQueue
      · exact .inr ⟨i, hSlot⟩
      · obtain ⟨-, hj⟩ := Update.of_none hj
        exact .inr ⟨j, hj⟩

end Placed

/-- The order of the queue does not matter. -/
theorem Placed.perm {slots : ι → Option α} {queue queue' : List α} {members : Set α}
    (h : Placed slots queue members) (hPerm : queue.Perm queue') : Placed slots queue' members where
  nodup := hPerm.nodup h.nodup
  apart hSlot hMem := h.apart hSlot (hPerm.mem_iff.mpr hMem)
  single := h.single
  mem_iff := by
    intro a
    rw [h.mem_iff, hPerm.mem_iff]

section Front

variable [DecidableEq ι] {slots : ι → Option α} {queue : List α} {members : Set α} {a : α} {i : ι}

/-- A member moves from its slot to the front of the queue. -/
theorem Placed.take (h : Placed slots queue members) (hSlot : slots i = some a) :
    Placed (Function.update slots i none) (a :: queue) members :=
  (h.fire hSlot).perm (List.perm_append_singleton a queue)

/-- The member in front moves to an empty slot. -/
theorem Placed.put (h : Placed slots (a :: queue) members) (hFree : slots i = none) :
    Placed (Function.update slots i (some a)) queue members := by
  have hMem : a ∈ members := h.mem_iff.mpr (.inl List.mem_cons_self)
  have hFilled := h.dequeue.fill hFree (a := a) (fun hLeft => hLeft.2 rfl)
  rwa [Set.insert_sdiff_self_of_mem hMem] at hFilled

end Front

/-- Every member is in one place, apart from those that were lost. -/
def Kept (lossy : Prop) (slots : ι → Option α) (queue : List α) (members : Set α) : Prop :=
  ∃ lost, Placed slots (queue ++ lost) members ∧ (lost = [] ∨ lossy)

namespace Kept

variable {lossy : Prop} {slots : ι → Option α} {queue : List α} {members : Set α} {a : α} {i : ι}

theorem empty : Kept lossy (fun _ : ι => none) ([] : List α) ∅ := ⟨[], .empty, .inl rfl⟩

theorem placed (h : Kept lossy slots queue members) (hLossless : ¬lossy) :
    Placed slots queue members := by
  obtain ⟨lost, hPlaced, hNone⟩ := h
  rw [hNone.resolve_right hLossless, List.append_nil] at hPlaced
  exact hPlaced

theorem mono {lossy' : Prop} (h : Kept lossy slots queue members) (hLossy : lossy → lossy') :
    Kept lossy' slots queue members := by
  obtain ⟨lost, hPlaced, hNone⟩ := h
  exact ⟨lost, hPlaced, hNone.imp_right hLossy⟩

theorem nodup (h : Kept lossy slots queue members) : queue.Nodup := by
  obtain ⟨lost, hPlaced, -⟩ := h
  exact (List.nodup_append.mp hPlaced.nodup).1

theorem mem_of_queue (h : Kept lossy slots queue members) (hMem : a ∈ queue) : a ∈ members := by
  obtain ⟨lost, hPlaced, -⟩ := h
  exact hPlaced.mem_iff.mpr (.inl (List.mem_append_left _ hMem))

theorem mem_of_slot (h : Kept lossy slots queue members) (hSlot : slots i = some a) :
    a ∈ members := by
  obtain ⟨lost, hPlaced, -⟩ := h
  exact hPlaced.mem_of_slot hSlot

/-- A new member joins the queue. -/
theorem enqueue (h : Kept lossy slots queue members) (hNew : a ∉ members) :
    Kept lossy slots (queue ++ [a]) (insert a members) := by
  obtain ⟨lost, hPlaced, hNone⟩ := h
  refine ⟨lost, (hPlaced.enqueue hNew).perm ?_, hNone⟩
  rw [List.append_assoc, List.append_assoc]
  exact List.perm_append_comm.append_left queue

/-- The member in front leaves. -/
theorem dequeue (h : Kept lossy slots (a :: queue) members) :
    Kept lossy slots queue (members \ {a}) := by
  obtain ⟨lost, hPlaced, hNone⟩ := h
  exact ⟨lost, hPlaced.dequeue, hNone⟩

/-- The member at the end is lost. -/
theorem lose (h : Kept lossy slots (queue ++ [a]) members) (hLossy : lossy) :
    Kept lossy slots queue members := by
  obtain ⟨lost, hPlaced, -⟩ := h
  rw [List.append_assoc] at hPlaced
  exact ⟨[a] ++ lost, hPlaced, .inr hLossy⟩

variable [DecidableEq ι]

/-- A new member takes an empty slot. -/
theorem fill (h : Kept lossy slots queue members) (hFree : slots i = none) (hNew : a ∉ members) :
    Kept lossy (Function.update slots i (some a)) queue (insert a members) := by
  obtain ⟨lost, hPlaced, hNone⟩ := h
  exact ⟨lost, hPlaced.fill hFree hNew, hNone⟩

/-- A member moves from its slot to the end of the queue. -/
theorem fire (h : Kept lossy slots queue members) (hSlot : slots i = some a) :
    Kept lossy (Function.update slots i none) (queue ++ [a]) members := by
  obtain ⟨lost, hPlaced, hNone⟩ := h
  refine ⟨lost, (hPlaced.fire hSlot).perm ?_, hNone⟩
  rw [List.append_assoc, List.append_assoc]
  exact List.perm_append_comm.append_left queue

end Kept

end Placement
