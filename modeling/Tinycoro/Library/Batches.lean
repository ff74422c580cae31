import Tinycoro.Library.History

/-! A queue that is served in batches, seen through its log. A batch serves only
what was in the queue when it began. What joins the queue meanwhile is served in a
later one, and so is what was served and comes back. -/
namespace Batches

open History

inductive Mark (α δ : Type*) where
  | queued (a : α)
  | served (a : α)
  | batch
  | other (d : δ)
  deriving DecidableEq

variable {α δ : Type*}

def queuedIn (log : List (Mark α δ)) : List α :=
  log.filterMap (fun
    | .queued a => some a
    | _ => none)

def servedIn (log : List (Mark α δ)) : List α :=
  log.filterMap (fun
    | .served a => some a
    | _ => none)

section Projections

variable {log rest : List (Mark α δ)} {a : α} {d : δ}

@[simp] theorem queuedIn_nil : queuedIn ([] : List (Mark α δ)) = [] := rfl

@[simp] theorem servedIn_nil : servedIn ([] : List (Mark α δ)) = [] := rfl

@[simp] theorem queuedIn_append : queuedIn (log ++ rest) = queuedIn log ++ queuedIn rest :=
  List.filterMap_append

@[simp] theorem servedIn_append : servedIn (log ++ rest) = servedIn log ++ servedIn rest :=
  List.filterMap_append

@[simp] theorem queuedIn_queued : queuedIn (.queued a :: log) = a :: queuedIn log := rfl

@[simp] theorem queuedIn_served : queuedIn (.served a :: log) = queuedIn log := rfl

@[simp] theorem queuedIn_batch : queuedIn (.batch :: log) = queuedIn log := rfl

@[simp] theorem queuedIn_other : queuedIn (.other d :: log) = queuedIn log := rfl

@[simp] theorem servedIn_queued : servedIn (.queued a :: log) = servedIn log := rfl

@[simp] theorem servedIn_served : servedIn (.served a :: log) = a :: servedIn log := rfl

@[simp] theorem servedIn_batch : servedIn (.batch :: log) = servedIn log := rfl

@[simp] theorem servedIn_other : servedIn (.other d :: log) = servedIn log := rfl

end Projections

/-- The front of the queue is served, and a batch has begun since it joined the
queue and since it was served the last time. -/
structure Fair (past : List (Mark α δ)) (a : α) : Prop where
  front : ∃ queue, queuedIn past = servedIn past ++ a :: queue ∧ (a :: queue).Nodup
  queued : ∀ {earlier between}, past = earlier ++ .queued a :: between → .batch ∈ between
  served : ∀ {earlier between}, past = earlier ++ .served a :: between → .batch ∈ between

/-- The log of a queue, with the number of members the present batch has yet to serve. -/
structure Serves (log : List (Mark α δ)) (queue : List α) (left : Nat) : Prop where
  conserved : queuedIn log = servedIn log ++ queue
  batch : 0 < left → ∃ before inside, log = before ++ .batch :: inside ∧ .batch ∉ inside ∧
    (servedIn log).length + left ≤ (queuedIn before).length
  fair : Each (fun past e => ∀ {a}, e = .served a → Fair past a) log

namespace Serves

variable {log : List (Mark α δ)} {queue : List α} {left : Nat} {a : α}

theorem empty : Serves ([] : List (Mark α δ)) ([] : List α) 0 := ⟨rfl, nofun, each_nil⟩

/-- A batch may end early. -/
theorem mono (h : Serves log queue left) {left' : Nat} (hLe : left' ≤ left) :
    Serves log queue left' where
  conserved := h.conserved
  batch := by
    intro hPos
    obtain ⟨before, inside, hLog, hInside, hLeft⟩ := h.batch (by omega)
    exact ⟨before, inside, hLog, hInside, by omega⟩
  fair := h.fair

theorem queueOne (h : Serves log queue left) (a : α) :
    Serves (log ++ [.queued a]) (queue ++ [a]) left where
  conserved := by simp [h.conserved]
  batch := by
    intro hPos
    obtain ⟨before, inside, rfl, hInside, hLeft⟩ := h.batch hPos
    exact ⟨before, inside ++ [.queued a], by simp, by simpa using hInside, by simpa using hLeft⟩
  fair := each_append.mpr ⟨h.fair, by simp⟩

theorem queueAll (h : Serves log queue left) (as : List α) :
    Serves (log ++ as.map .queued) (queue ++ as) left := by
  induction as generalizing log queue with
  | nil => simpa using h
  | cons a as ih => simpa using ih (h.queueOne a)

theorem other (h : Serves log queue left) (d : δ) : Serves (log ++ [.other d]) queue left where
  conserved := by simp [h.conserved]
  batch := by
    intro hPos
    obtain ⟨before, inside, rfl, hInside, hLeft⟩ := h.batch hPos
    exact ⟨before, inside ++ [.other d], by simp, by simpa using hInside, by simpa using hLeft⟩
  fair := each_append.mpr ⟨h.fair, by simp⟩

/-- A batch begins: it will serve what is there. -/
theorem begin (h : Serves log queue left) : Serves (log ++ [.batch]) queue queue.length where
  conserved := by simp [h.conserved]
  batch := fun _ => ⟨log, [], rfl, nofun, by simp [h.conserved]⟩
  fair := each_append.mpr ⟨h.fair, by simp⟩

/-- What the batch serves next was in the queue when it began. -/
theorem front_older (h : Serves log (a :: queue) (left + 1)) :
    ∃ before inside older, log = before ++ .batch :: inside ∧ .batch ∉ inside ∧
      queuedIn before = servedIn log ++ a :: older ∧ queue = older ++ queuedIn inside := by
  obtain ⟨before, inside, rfl, hInside, hLeft⟩ := h.batch (Nat.succ_pos left)
  have hAll := h.conserved
  rw [queuedIn_append, queuedIn_batch] at hAll
  rcases List.append_eq_append_iff.mp hAll with ⟨short, hServed, -⟩ | ⟨more, hQueued, hRest⟩
  · rw [hServed, List.length_append] at hLeft
    omega
  · cases more with
    | nil =>
      rw [hQueued, List.append_nil] at hLeft
      omega
    | cons b older =>
      rw [List.cons_append] at hRest
      obtain ⟨rfl, hTail⟩ := List.cons.inj hRest
      exact ⟨before, inside, older, rfl, hInside, hQueued, hTail⟩

/-- The next member is served. It cannot have joined the queue during this batch,
for then it would be in the queue twice. -/
theorem fair_front (h : Serves log (a :: queue) (left + 1)) (hNodup : (a :: queue).Nodup) :
    Fair log a where
  front := ⟨queue, h.conserved, hNodup⟩
  queued := by
    intro earlier between hLog
    obtain ⟨before, inside, older, hSplit, -, -, rfl⟩ := h.front_older
    rcases List.append_eq_append_iff.mp (hLog.symm.trans hSplit) with ⟨mid, rfl, hRest⟩ | ⟨mid, rfl,
      hRest⟩
    · cases mid with
      | nil => cases hRest
      | cons =>
        obtain ⟨-, rfl⟩ := List.cons.inj hRest
        simp
    · cases mid with
      | nil => cases hRest
      | cons =>
        obtain ⟨-, rfl⟩ := List.cons.inj hRest
        simp at hNodup
  served := by
    intro earlier between hLog
    by_contra hNone
    obtain ⟨before, inside, older, hSplit, -, hOlder, -⟩ := h.front_older
    obtain ⟨queue', hBefore, hNodup'⟩ := (h.fair earlier (.served a) between hLog rfl).front
    rcases List.append_eq_append_iff.mp (hLog.symm.trans hSplit) with ⟨mid, rfl, hRest⟩ | ⟨mid, rfl,
      hRest⟩
    · cases mid with
      | nil => cases hRest
      | cons =>
        obtain ⟨-, rfl⟩ := List.cons.inj hRest
        simp at hNone
    · -- both services are of members that were in the queue before the first
      rw [queuedIn_append, hOlder, hLog, servedIn_append, servedIn_served, List.append_assoc,
        List.append_assoc, List.append_cancel_left_eq] at hBefore
      rw [← hBefore] at hNodup'
      simp at hNodup'

theorem serve (h : Serves log (a :: queue) (left + 1)) (hNodup : (a :: queue).Nodup) :
    Serves (log ++ [.served a]) queue left where
  conserved := by simp [h.conserved]
  batch := by
    intro _
    obtain ⟨before, inside, hLog, hInside, hLeft⟩ := h.batch (Nat.succ_pos left)
    refine ⟨before, inside ++ [.served a], by simp [hLog], by simpa using hInside, ?_⟩
    rw [servedIn_append, List.length_append, servedIn_served, servedIn_nil, List.length_singleton]
    omega
  fair := by
    refine each_append.mpr ⟨h.fair, ?_⟩
    simpa using h.fair_front hNodup

end Serves

end Batches
