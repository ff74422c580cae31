import Tinycoro.Library.Ledger
import Tinycoro.Net.Callbacks

/-! Who closes the descriptors that `::accept` returns. A connection closes its own when it
is destroyed, and a descriptor that cannot be made non-blocking is closed at once. If
`make_shared` fails, there is no connection, and the handler that would close the
descriptor only closes connections. -/
namespace Tinycoro.Net

open Effect Transition Ledger

namespace Reactor

/-- A connection exists that has the descriptor. -/
def Owned (s : Reactor) (fd : Int) : Prop :=
  ∃ id object, s.server.objects id = some object ∧ object.connection.fd = fd

/-- An event in the life of a descriptor. -/
def fdEvent : ReactorEvent → Bool
  | .opened _ | .released _ | .makeSharedFailed _ => true
  | _ => false

/-- A step that leaves the descriptors alone. -/
structure Bystands (s s' : Reactor) (events : List ReactorEvent) : Prop where
  owned : ∀ fd, s'.Owned fd ↔ s.Owned fd
  descriptors : s'.server.descriptors = s.server.descriptors
  events : ∀ e ∈ events, fdEvent e = false

section Steps

variable {s s' : Reactor} {events : List ReactorEvent} {id : Nat} {object : Object}

theorem bystands_still (hStill : Still s s') (hEvents : ∀ e ∈ events, fdEvent e = false) :
    Bystands s s' events :=
  ⟨fun fd => by rw [Owned, Owned, hStill.objects], hStill.descriptors, hEvents⟩

/-- A call on a connection. -/
theorem bystands_act (hObject : s.server.objects id = some object) (f : Conn → ConnOutcome)
    (hFd : (f ⟨object.connection, s.server.loop, object.pc⟩).state.connection.fd =
      object.connection.fd) (hServer : s'.server = (s.server.act id f none).state)
    (hEvents : ∀ e ∈ events, fdEvent e = false) : Bystands s s' events := by
  obtain ⟨-, hObjects, hDescriptors⟩ := TcpServer.act_parts hObject f
  refine ⟨fun fd => ?_, by rw [hServer, hDescriptors], hEvents⟩
  rw [Owned, hServer, hObjects]
  constructor
  · rintro ⟨i, x, hX, rfl⟩
    rcases Update.some_cases hX with ⟨rfl, rfl⟩ | ⟨_, hOld⟩
    · exact ⟨i, object, hObject, hFd.symm⟩
    · exact ⟨i, x, hOld, rfl⟩
  · rintro ⟨i, x, hX, rfl⟩
    by_cases hSame : i = id
    · subst hSame
      cases hObject.symm.trans hX
      exact ⟨i, _, Function.update_self .., hFd⟩
    · exact ⟨i, x, (Function.update_of_ne hSame ..).trans hX, rfl⟩

theorem fdEvent_act (s : Reactor) (hObject : s.server.objects id = some object)
    (f : Conn → ConnOutcome) :
    ∀ e ∈ (TcpServer.report (s.server.act id f none)).2.flatMap s.translate, fdEvent e = false := by
  rw [Inv.translate_act s hObject]
  intro e hMem
  rcases List.mem_append.mp hMem with hMem | hMem
  · obtain ⟨e', -, hIn⟩ := List.mem_flatMap.mp hMem
    simp only [translate, List.mem_cons] at hIn
    rcases hIn with rfl | hIn
    · rfl
    · split at hIn
      · rw [List.mem_singleton.mp hIn]
        rfl
      · cases hIn
  · cases hError : (f ⟨object.connection, s.server.loop, object.pc⟩).error with
    | none => simp [hError] at hMem
    | some =>
      simp only [hError, Option.map_some, Option.toList_some, List.mem_singleton] at hMem
      rw [hMem]
      rfl

theorem bystands_enter (s : Reactor) (address : Nat) (direction : Io.Event) :
    Bystands s (s.enter address direction).1 (s.enter address direction).2 := by
  unfold enter
  cases hObject : s.server.objects address with
  | none => exact bystands_still ⟨rfl, rfl, rfl, rfl, rfl, rfl, rfl⟩ (by simp [fdEvent])
  | some =>
    refine bystands_act hObject (·.perform (handler direction)) ?_ rfl (by simp [fdEvent])
    cases direction <;> rfl

end Steps

/-- The account of every descriptor. The ones that are held have a connection, or are those
for which `make_shared` has failed. -/
structure Books (s : Reactor) (trace : List ReactorEvent) : Prop where
  balanced : ∀ fd, ∃ held, Balanced (.opened fd) (.released fd) held trace ∧
    (held = true ↔ s.Owned fd ∨ .makeSharedFailed fd ∈ trace)
  lost : ∀ {fd}, .makeSharedFailed fd ∈ trace → s.server.descriptors fd = true ∧ ¬ s.Owned fd

namespace Books

variable {s s' : Reactor} {trace events : List ReactorEvent} {fd : Int} {id : Nat}

theorem bystands (h : Books s trace) (hMove : Bystands s s' events) :
    Books s' (trace ++ events) := by
  have hLost : ∀ {fd}, .makeSharedFailed fd ∈ trace ++ events ↔ .makeSharedFailed fd ∈ trace := by
    intro fd
    rw [List.mem_append, or_iff_left_iff_imp]
    exact fun hMem => absurd (hMove.events _ hMem) nofun
  refine ⟨fun fd => ?_, fun {fd} hMem => ?_⟩
  · obtain ⟨held, hBalanced, hHeld⟩ := h.balanced fd
    refine ⟨held, hBalanced.others fun e he => ?_, by rw [hHeld, hMove.owned, hLost]⟩
    constructor
    · rintro rfl
      exact absurd (hMove.events _ he) nofun
    · rintro rfl
      exact absurd (hMove.events _ he) nofun
  · rw [hMove.descriptors, hMove.owned]
    exact h.lost (hLost.mp hMem)

/-- A connection is destroyed and closes its descriptor. -/
theorem drops (h : Books s trace) (hInv : Inv s trace) {object : Object}
    (hObject : s.server.objects id = some object)
    (hServer : s'.server = s.server.destroy id object) :
    Books s' (trace ++ [.released object.connection.fd, .destroyed (s.number id)]) := by
  have hOwner : s.Owned object.connection.fd := ⟨id, object, hObject, rfl⟩
  have hOwned : ∀ fd, s'.Owned fd ↔ s.Owned fd ∧ fd ≠ object.connection.fd := by
    intro fd
    rw [Owned, hServer, TcpServer.objects_destroy]
    constructor
    · rintro ⟨i, x, hX, rfl⟩
      obtain ⟨hSame, hX⟩ := Update.of_none hX
      exact ⟨⟨i, x, hX, rfl⟩, fun hEq => hSame (hInv.wired.distinct hX hObject hEq)⟩
    · rintro ⟨⟨i, x, hX, rfl⟩, hNe⟩
      have hSame : i ≠ id := by
        rintro rfl
        cases hObject.symm.trans hX
        exact hNe rfl
      exact ⟨i, x, (Function.update_of_ne hSame ..).trans hX, rfl⟩
  have hLost : ∀ {fd}, .makeSharedFailed fd ∈
      trace ++ [.released object.connection.fd, .destroyed (s.number id)] ↔
      .makeSharedFailed fd ∈ trace := by simp
  refine ⟨fun fd => ?_, fun {fd} hMem => ?_⟩
  · obtain ⟨held, hBalanced, hHeld⟩ := h.balanced fd
    rw [hLost, hOwned]
    by_cases hSame : fd = object.connection.fd
    · subst hSame
      obtain rfl : held = true := hHeld.mpr (.inl hOwner)
      refine ⟨false, ?_, ?_⟩
      · rw [List.append_cons]
        exact hBalanced.give.others (by simp)
      · refine ⟨nofun, ?_⟩
        rintro (⟨-, hNe⟩ | hMem)
        · exact absurd rfl hNe
        · exact absurd hOwner (h.lost hMem).2
    · refine ⟨held, hBalanced.others (by simp [Ne.symm hSame]), hHeld.trans ?_⟩
      rw [and_iff_left hSame]
  · have hBefore := h.lost (hLost.mp hMem)
    have hNe : fd ≠ object.connection.fd := by
      rintro rfl
      exact hBefore.2 hOwner
    rw [hServer, TcpServer.descriptors_destroy, Function.update_of_ne hNe, hOwned]
    exact ⟨hBefore.1, fun hBoth => hBefore.2 hBoth.1⟩

/-- A descriptor is returned by `::accept` and not closed. Either the new connection has
it, or nobody. -/
theorem takes (h : Books s trace) (hNot : ¬ s.Owned fd) (hKnown : .makeSharedFailed fd ∉ trace)
    {rest : List ReactorEvent} (hRest : ∀ e ∈ rest, ∀ fd', e ≠ .opened fd' ∧ e ≠ .released fd')
    (hOwned : ∀ fd', fd' ≠ fd → (s'.Owned fd' ↔ s.Owned fd'))
    (hDescriptors : s'.server.descriptors = Function.update s.server.descriptors fd true)
    (hLost : ∀ {fd'}, .makeSharedFailed fd' ∈ rest → fd' = fd)
    (hHeld : .makeSharedFailed fd ∈ rest ↔ ¬ s'.Owned fd) :
    Books s' (trace ++ .opened fd :: rest) := by
  have hMem : ∀ {fd'}, fd' ≠ fd →
      (.makeSharedFailed fd' ∈ trace ++ .opened fd :: rest ↔ .makeSharedFailed fd' ∈ trace) := by
    intro fd' hNe
    simp only [List.mem_append, List.mem_cons, reduceCtorEq, false_or, or_iff_left_iff_imp]
    exact fun hIn => absurd (hLost hIn) hNe
  have hHere : .makeSharedFailed fd ∈ trace ++ .opened fd :: rest ↔
      .makeSharedFailed fd ∈ rest := by
    simp [hKnown]
  refine ⟨fun fd' => ?_, fun {fd'} hIn => ?_⟩
  · obtain ⟨held, hBalanced, hBefore⟩ := h.balanced fd'
    by_cases hSame : fd' = fd
    · subst hSame
      obtain rfl : held = false := by
        rw [← Bool.not_eq_true, hBefore]
        rintro (hOwner | hIn)
        · exact hNot hOwner
        · exact hKnown hIn
      refine ⟨true, ?_, ?_⟩
      · rw [List.append_cons]
        exact hBalanced.take.others fun e he => hRest e he fd'
      · rw [hHere, hHeld]
        simpa using em (s'.Owned fd')
    · refine ⟨held, hBalanced.others fun e he => ?_, by rw [hBefore, hOwned fd' hSame, hMem hSame]⟩
      rcases List.mem_cons.mp he with rfl | he
      · simp [Ne.symm hSame]
      · exact hRest e he fd'
  · rw [hDescriptors]
    by_cases hSame : fd' = fd
    · subst hSame
      exact ⟨Function.update_self .., hHeld.mp (hHere.mp hIn)⟩
    · rw [Function.update_of_ne hSame, hOwned fd' hSame]
      exact h.lost ((hMem hSame).mp hIn)

/-- The new connection has the descriptor, and all others have theirs. -/
theorem owned_of_update {object : Object} (hFree : s.server.objects id = none)
    (hObjects : s'.server.objects = Function.update s.server.objects id (some object)) (fd : Int) :
    s'.Owned fd ↔ s.Owned fd ∨ object.connection.fd = fd := by
  rw [Owned, hObjects]
  constructor
  · rintro ⟨i, x, hX, rfl⟩
    rcases Update.some_cases hX with ⟨_, rfl⟩ | ⟨_, hOld⟩
    · exact .inr rfl
    · exact .inl ⟨i, x, hOld, rfl⟩
  · rintro (⟨i, x, hX, rfl⟩ | rfl)
    · have hNe : i ≠ id := by
        rintro rfl
        rw [hFree] at hX
        cases hX
      exact ⟨i, x, (Function.update_of_ne hNe ..).trans hX, rfl⟩
    · exact ⟨id, object, Function.update_self .., rfl⟩

/-- A new descriptor is booked for the connection it is given to, closed, or lost with the
`make_shared` that failed. -/
theorem accepts {fault : Option AcceptFault} (h : Books s trace) (hInv : Inv s trace)
    (hClosed : s.server.descriptors fd = false) (hFree : s.server.objects id = none)
    (hAccepted : Accepted s fd id fault (s', events)) : Books s' (trace ++ events) := by
  have hNot : ¬ s.Owned fd := by
    rintro ⟨i, x, hX, rfl⟩
    exact absurd ((hInv.wired.placed hX).descriptor.symm.trans hClosed) nofun
  have hKnown : .makeSharedFailed fd ∉ trace := fun hIn =>
    absurd ((h.lost hIn).1.symm.trans hClosed) nofun
  cases hAccepted with
  | refused e _ hObjects hDescriptors hEvents =>
    dsimp only at hObjects hDescriptors hEvents
    subst hEvents
    have hLost : ∀ {fd'}, .makeSharedFailed fd' ∈ trace ++ [.opened fd, .released fd, .threw e] ↔
        .makeSharedFailed fd' ∈ trace := by simp
    refine ⟨fun fd' => ?_, fun {fd'} hIn => ?_⟩
    · obtain ⟨held, hBalanced, hBefore⟩ := h.balanced fd'
      refine ⟨held, ?_, by rw [hBefore, hLost, Owned, Owned, hObjects]⟩
      by_cases hSame : fd' = fd
      · subst hSame
        obtain rfl : held = false := by
          rw [← Bool.not_eq_true, hBefore]
          rintro (hOwner | hIn)
          · exact hNot hOwner
          · exact hKnown hIn
        rw [List.append_cons, List.append_cons]
        exact hBalanced.take.give.others (by simp)
      · exact hBalanced.others (by simp [Ne.symm hSame])
    · have hBefore := h.lost (hLost.mp hIn)
      have hNe : fd' ≠ fd := by
        rintro rfl
        exact hKnown (hLost.mp hIn)
      rw [hDescriptors, Function.update_of_ne hNe, Function.update_of_ne hNe, Owned, hObjects]
      exact hBefore
  | unmade e _ hObjects hDescriptors hEvents =>
    dsimp only at hObjects hDescriptors hEvents
    subst hEvents
    have hOwned : ∀ fd', s'.Owned fd' ↔ s.Owned fd' := fun fd' => by rw [Owned, Owned, hObjects]
    exact h.takes hNot hKnown (by simp) (fun fd' _ => hOwned fd') hDescriptors (by simp)
      (by simp [hOwned, hNot])
  | abandoned e object _ hObjects hDescriptors hFd _ _ hEvents =>
    dsimp only at hObjects hDescriptors hEvents
    subst hEvents
    have hOwned := owned_of_update hFree hObjects
    rw [hFd] at hOwned
    refine h.takes hNot hKnown ?_ (fun fd' hNe => by simp [hOwned, Ne.symm hNe]) hDescriptors ?_ ?_
    · cases s.server.closeCallback <;> simp
    · cases s.server.closeCallback <;> simp
    · cases s.server.closeCallback <;> simp [hOwned]
  | established object _ hObjects hDescriptors hFd _ _ hEvents =>
    dsimp only at hObjects hDescriptors hEvents
    subst hEvents
    have hOwned := owned_of_update hFree hObjects
    rw [hFd] at hOwned
    refine h.takes hNot hKnown ?_ (fun fd' hNe => by simp [hOwned, Ne.symm hNe]) hDescriptors ?_ ?_
    · cases s.server.connectionCallback <;> simp
    · cases s.server.connectionCallback <;> simp
    · cases s.server.connectionCallback <;> simp [hOwned]

theorem step (h : Books s trace) (hInv : Inv s trace) (hStep : Step s s' events) :
    Books s' (trace ++ events) := by
  cases hStep with
  | rests hStill hEvents =>
    refine h.bystands (bystands_still hStill fun e hMem => ?_)
    obtain ⟨x, rfl⟩ := hEvents e hMem
    rfl
  | listens hStill => exact h.bystands (bystands_still hStill (by simp [fdEvent]))
  | @enters fd id frames direction =>
    have hEnter := bystands_enter { s with frames } id direction
    exact h.bystands ⟨hEnter.owned, hEnter.descriptors, hEnter.events⟩
  | turns hActive hObject hTurn hEnabled | calls hActive hObject hCall hEnabled =>
    exact h.bystands (bystands_act hObject _ (Conn.fate_perform hEnabled).fd rfl
      (fdEvent_act s hObject _))
  | @abandons s₁ id object hStill hActive hObject =>
    have hClose : Bystands s₁ (s₁.absorb (s₁.server.act id Conn.close none)).1 _ :=
      bystands_act hObject Conn.close (Conn.fate_close _).fd rfl (fdEvent_act s₁ hObject Conn.close)
    have hBefore : Bystands s s₁ [] := bystands_still hStill (by simp)
    exact h.bystands ⟨fun fd => (hClose.owned fd).trans (hBefore.owned fd),
      hClose.descriptors.trans hBefore.descriptors, hClose.events⟩
  | accepts fault batch channel frames hNonneg hClosed hFree =>
    exact h.accepts hInv hClosed hFree (s.accepted_accept hNonneg _ fault batch channel frames)
  | drops hObject => exact h.drops hInv hObject rfl
  | starts => exact h.bystands ⟨fun fd => .rfl, rfl, by simp⟩

theorem of_reaches {descriptors : Int → Bool} {listen : Io.Channel}
    (h : (reactorMachine descriptors listen).Reaches s trace) : Books s trace := by
  refine h.invariant (P := Books) ?_ fun hPrior hBooks hNext => hBooks.step (Inv.of_reaches hPrior)
    (step_of_next hNext)
  refine ⟨fun fd => ⟨false, .nil, ?_⟩, nofun⟩
  refine ⟨nofun, ?_⟩
  rintro (⟨_, _, hX, _⟩ | hIn)
  · cases hX
  · cases hIn

end Books

/-- Unless `make_shared` has failed for it: of every descriptor that `::accept` has returned, up
to the next time it returns the same one, either it was closed exactly once, or it was not
closed and a connection has it. A descriptor for which `make_shared` has failed is lost: it is
open, and no connection has it. -/
theorem descriptors_settled {descriptors : Int → Bool} {listen : Io.Channel} {s : Reactor}
    {trace : List ReactorEvent} (h : (reactorMachine descriptors listen).Reaches s trace) {fd : Int}
    {before after : List ReactorEvent} (hAccept : trace = before ++ .opened fd :: after) :
    (.makeSharedFailed fd ∉ trace →
      (Ledger.turn (.opened fd) after).count (.released fd) = 1 ∨
        (Ledger.turn (.opened fd) after).count (.released fd) = 0 ∧ .opened fd ∉ after ∧
          s.Owned fd) ∧
      (.makeSharedFailed fd ∈ trace → s.server.descriptors fd = true ∧ ¬ s.Owned fd) := by
  have hBooks := Books.of_reaches h
  refine ⟨fun hMade => ?_, hBooks.lost⟩
  obtain ⟨held, hBalanced, hHeld⟩ := hBooks.balanced fd
  rcases hBalanced.settled nofun hAccept with ⟨hOnce, -⟩ | ⟨hNever, hLast, hStill⟩
  · exact .inl hOnce
  · exact .inr ⟨hNever, hLast, (hHeld.mp hStill).resolve_right hMade⟩

/-- One connection is accepted; the next descriptor cannot be made non-blocking, and
`handle_accept` throws. The first descriptor has an owner, the other one was closed. -/
theorem descriptors_settled_two :
    ∃ s, (reactorMachine (fun _ => false) ⟨0, 3, ⟨true, false⟩⟩).Reaches s
        [.called 0 .read true, .opened 5, .unannounced 0, .opened 6, .released 6,
          .threw (.std (.systemError EBADF "fcntl O_NONBLOCK"))] ∧ s.frames = [] ∧ s.Owned 5 ∧
      (Ledger.turn (ReactorEvent.opened 6) [.released 6,
        .threw (.std (.systemError EBADF "fcntl O_NONBLOCK"))]).count (.released 6) = 1 := by
  have hRun : ((reactorMachine (fun _ => false) ⟨0, 3, ⟨true, false⟩⟩).run
      (.create (fun _ => false) ⟨0, 3, ⟨true, false⟩⟩)
      [.start false, .kernel 3 ⟨true, false, false, false, false⟩ true, .poll 10 [3], .dispatchRead,
        .accept 5 1 none, .accept 6 2 (some (.setNonblocking EBADF false))]).map
        (fun r => (r.1.frames.isEmpty, r.2)) =
      some (true, [.called 0 .read true, .opened 5, .unannounced 0, .opened 6, .released 6,
        .threw (.std (.systemError EBADF "fcntl O_NONBLOCK"))]) := by decide +kernel
  obtain ⟨⟨s, trace⟩, hRun, hView⟩ := Option.map_eq_some_iff.mp hRun
  obtain ⟨hFrames, rfl⟩ := Prod.mk.inj hView
  have hReaches := Machine.Reaches.start.run hRun
  have hFirst := (@descriptors_settled _ _ _ _ hReaches 5 [.called 0 .read true] _ rfl).1 (by simp)
  have hSecond := (@descriptors_settled _ _ _ _ hReaches 6
    [.called 0 .read true, .opened 5, .unannounced 0] _ rfl).1 (by simp)
  refine ⟨s, hReaches, List.isEmpty_iff.mp hFrames, (hFirst.resolve_left (by decide)).2.2, ?_⟩
  exact hSecond.resolve_right fun hNever => absurd hNever.1 (by decide)

/-- `make_shared` fails for the first connection. When `handle_accept` has thrown, the
descriptor is open, no connection has it, and it was not closed. -/
theorem descriptor_leaked :
    ∃ s, (reactorMachine (fun _ => false) ⟨0, 3, ⟨true, false⟩⟩).Reaches s
        [.called 0 .read true, .opened 5, .threw (.std .badAlloc), .makeSharedFailed 5] ∧
        s.frames = [] ∧
      s.server.descriptors 5 = true ∧ ¬ s.Owned 5 ∧
      (Ledger.turn (ReactorEvent.opened 5) [.threw (.std .badAlloc), .makeSharedFailed 5]).count
        (.released 5) = 0 := by
  have hRun : ((reactorMachine (fun _ => false) ⟨0, 3, ⟨true, false⟩⟩).run
      (.create (fun _ => false) ⟨0, 3, ⟨true, false⟩⟩)
      [.start false, .kernel 3 ⟨true, false, false, false, false⟩ true, .poll 10 [3], .dispatchRead,
        .accept 5 1 (some .makeShared)]).map (fun r => (r.1.frames.isEmpty, r.2)) =
      some (true, [.called 0 .read true, .opened 5, .threw (.std .badAlloc), .makeSharedFailed 5])
        := by
    decide +kernel
  obtain ⟨⟨s, trace⟩, hRun, hView⟩ := Option.map_eq_some_iff.mp hRun
  obtain ⟨hFrames, rfl⟩ := Prod.mk.inj hView
  have hReaches := Machine.Reaches.start.run hRun
  have hLost : s.server.descriptors 5 = true ∧ ¬ s.Owned 5 := (Books.of_reaches hReaches).lost
      (by simp)
  exact ⟨s, hReaches, List.isEmpty_iff.mp hFrames, hLost.1, hLost.2, by decide⟩

end Reactor

end Tinycoro.Net
