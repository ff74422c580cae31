import Tinycoro.Library.Update
import Tinycoro.Net.TcpServer

/-! What is in the server's map. A connection enters it when it is accepted and leaves it
through the close callback that the server has set. User code may replace that callback,
and the callback may throw before it erases the entry; a connection closed then stays in
the map for ever, and the loop of the server's destructor does not end. -/
namespace Tinycoro.Net

open Effect Transition

namespace TcpServer

/-- The connection was closed while its close callback was not the server's, or that
callback has thrown before it erased the entry. -/
def Stranded (trace : List ServerEvent) (id : Nat) : Prop :=
  .kept id ∈ trace ∨ ∃ callback, callback ≠ .server ∧ .connection id (.closed callback) ∈ trace

/-- The event strands a connection. -/
def Strands (id : Nat) (e : ServerEvent) : Prop :=
  e = .kept id ∨ ∃ callback, callback ≠ .server ∧ e = .connection id (.closed callback)

/-- The map names objects by the descriptors they hold. -/
structure WellFormed (w : TcpServer) (trace : List ServerEvent) : Prop where
  mapped : ∀ {fd id}, (fd, id) ∈ w.connections → ∃ object, w.objects id = some object ∧
    object.connection.fd = fd
  keys : (w.connections.map Prod.fst).Nodup
  bounded : ∀ {id object}, w.objects id = some object → id < w.fresh
  descriptor : ∀ {id object}, w.objects id = some object → w.descriptors object.connection.fd = true
  distinct : ∀ {i j a b}, w.objects i = some a → w.objects j = some b →
    a.connection.fd = b.connection.fd → i = j
  unlinked : ∀ {id object}, w.objects id = some object → object.connection.closeCallback ≠ .server →
    .unlinked id ∈ trace

/-- The map holds the open connections and the stranded ones. A connection that is being
accepted, the `pending` one, may be open before it is in the map. -/
structure Holds (w : TcpServer) (trace : List ServerEvent) (pending : Option Nat) : Prop where
  opened : ∀ {id object}, w.objects id = some object → object.connection.closed = false →
    some id ≠ pending → (object.connection.fd, id) ∈ w.connections
  closed : ∀ {fd id object}, (fd, id) ∈ w.connections → w.objects id = some object →
    object.connection.closed = true → Stranded trace id
  stranded : ∀ {id}, Stranded trace id → (.unlinked id ∈ trace ∨ .kept id ∈ trace) ∧
    ∃ object, w.objects id = some object ∧ object.connection.closed = true ∧
      (object.connection.fd, id) ∈ w.connections
  pending : ∀ {id object}, some id = pending → w.objects id = some object →
    object.connection.closeCallback = .server

variable {trace : List ServerEvent}

theorem stranded_iff {id : Nat} : Stranded trace id ↔ ∃ e ∈ trace, Strands id e := by
  simp only [Stranded, Strands]
  constructor
  · rintro (hKept | ⟨callback, hNot, hMem⟩)
    · exact ⟨_, hKept, .inl rfl⟩
    · exact ⟨_, hMem, .inr ⟨callback, hNot, rfl⟩⟩
  · rintro ⟨_, hMem, rfl | ⟨callback, hNot, rfl⟩⟩
    · exact .inl hMem
    · exact .inr ⟨callback, hNot, hMem⟩

theorem Stranded.append {id : Nat} (h : Stranded trace id) (events : List ServerEvent) :
    Stranded (trace ++ events) id := by
  obtain ⟨e, hMem, hStrands⟩ := stranded_iff.mp h
  exact stranded_iff.mpr ⟨e, List.mem_append_left _ hMem, hStrands⟩

/-- Events that strand no connection. -/
theorem stranded_append {events : List ServerEvent} {id : Nat}
    (hEvents : ∀ e ∈ events, ¬ Strands id e) :
    Stranded (trace ++ events) id ↔ Stranded trace id := by
  refine ⟨fun h => ?_, fun h => h.append events⟩
  obtain ⟨e, hMem, hStrands⟩ := stranded_iff.mp h
  rcases List.mem_append.mp hMem with hOld | hNew
  · exact stranded_iff.mpr ⟨e, hOld, hStrands⟩
  · exact absurd hStrands (hEvents e hNew)

theorem parted_append {id : Nat} (events : List ServerEvent)
    (h : .unlinked id ∈ trace ∨ .kept id ∈ trace) :
    .unlinked id ∈ trace ++ events ∨ .kept id ∈ trace ++ events :=
  h.imp (List.mem_append_left _) (List.mem_append_left _)

section Objects

variable {w : TcpServer} {trace events : List ServerEvent} {pending : Option Nat} {id : Nat}
  {object object' : Object} {loop : Io.EventLoop} {connections : List (Int × Nat)}

/-- Another object with the same descriptor takes the place of one, and entries leave the
map. -/
theorem WellFormed.replace (h : WellFormed w trace) (hObject : w.objects id = some object)
    (hFd : object'.connection.fd = object.connection.fd) (hSub : connections.Sublist w.connections)
    (hUnlinked : object'.connection.closeCallback ≠ .server → .unlinked id ∈ trace ++ events) :
    WellFormed { w with loop, connections, objects := Function.update w.objects id (some object') }
      (trace ++ events) := by
  have hBack : ∀ {i a}, Function.update w.objects id (some object') i = some a →
      ∃ a', w.objects i = some a' ∧ a'.connection.fd = a.connection.fd := by
    intro i a hEq
    rcases Update.some_cases hEq with ⟨rfl, rfl⟩ | ⟨_, hA⟩
    · exact ⟨object, hObject, hFd.symm⟩
    · exact ⟨a, hA, rfl⟩
  refine ⟨?_, (hSub.map Prod.fst).nodup h.keys, ?_, ?_, ?_, ?_⟩
  · intro fd i hMem
    obtain ⟨a, hA, hFdA⟩ := h.mapped (hSub.subset hMem)
    by_cases hSame : i = id
    · subst hSame
      cases hObject.symm.trans hA
      exact ⟨object', Function.update_self .., hFd.trans hFdA⟩
    · exact ⟨a, (Function.update_of_ne hSame ..).trans hA, hFdA⟩
  · intro i a hEq
    obtain ⟨a', hA', _⟩ := hBack hEq
    exact h.bounded hA'
  · intro i a hEq
    obtain ⟨a', hA', hFdA⟩ := hBack hEq
    exact hFdA ▸ h.descriptor hA'
  · intro i j a b hI hJ hFds
    obtain ⟨a', hA', hFdA⟩ := hBack hI
    obtain ⟨b', hB', hFdB⟩ := hBack hJ
    exact h.distinct hA' hB' (hFdA.trans (hFds.trans hFdB.symm))
  · intro i a hEq hNot
    rcases Update.some_cases hEq with ⟨rfl, rfl⟩ | ⟨_, hA⟩
    · exact hUnlinked hNot
    · exact List.mem_append_left _ (h.unlinked hA hNot)

variable {fd : Int}

/-- The entry of an object is the only one with its descriptor. -/
theorem WellFormed.mem_filter (h : WellFormed w trace) (hObject : w.objects id = some object)
    {i : Nat} (hMem : (fd, i) ∈ w.connections) :
    (fd, i) ∈ w.connections.filter (fun entry => entry.1 ≠ object.connection.fd) ↔ i ≠ id := by
  obtain ⟨a, hA, hFd⟩ := h.mapped hMem
  rw [List.mem_filter, decide_eq_true_iff]
  refine ⟨?_, fun hNe => ⟨hMem, fun hEq => ?_⟩⟩
  · rintro ⟨_, hOther⟩ rfl
    cases hObject.symm.trans hA
    exact hOther hFd.symm
  · exact hNe (h.distinct hA hObject (hFd.trans hEq))

/-- A call that leaves a connection open or closed. -/
theorem Holds.replace (h : Holds w trace pending) (hObject : w.objects id = some object)
    (hFd : object'.connection.fd = object.connection.fd)
    (hClosed : object'.connection.closed = object.connection.closed)
    (hLinked : object'.connection.closeCallback = .server ∨ some id ≠ pending)
    (hEvents : ∀ i, ∀ e ∈ events, ¬ Strands i e) :
    Holds { w with loop, objects := Function.update w.objects id (some object') }
      (trace ++ events) pending := by
  have hBack : ∀ {i a}, Function.update w.objects id (some object') i = some a →
      ∃ a', w.objects i = some a' ∧ a'.connection.fd = a.connection.fd ∧
        a'.connection.closed = a.connection.closed := by
    intro i a hEq
    rcases Update.some_cases hEq with ⟨rfl, rfl⟩ | ⟨_, hA⟩
    · exact ⟨object, hObject, hFd.symm, hClosed.symm⟩
    · exact ⟨a, hA, rfl, rfl⟩
  refine ⟨?_, ?_, ?_, ?_⟩
  · intro i a hEq hOpen hPending
    obtain ⟨a', hA', hFdA, hClosedA⟩ := hBack hEq
    exact hFdA ▸ h.opened hA' (hClosedA.trans hOpen) hPending
  · intro fd i a hMem hEq hShut
    obtain ⟨a', hA', _, hClosedA⟩ := hBack hEq
    exact (h.closed hMem hA' (hClosedA.trans hShut)).append events
  · intro i hStranded
    obtain ⟨hUnlinked, a, hA, hShut, hMem⟩ := h.stranded
      ((stranded_append (hEvents i)).mp hStranded)
    by_cases hSame : i = id
    · subst hSame
      cases hObject.symm.trans hA
      exact ⟨parted_append _ hUnlinked, object', Function.update_self .., hClosed.trans hShut,
        hFd ▸ hMem⟩
    · exact ⟨parted_append _ hUnlinked, a, (Function.update_of_ne hSame ..).trans hA, hShut, hMem⟩
  · intro i a hPending hEq
    rcases Update.some_cases hEq with ⟨rfl, rfl⟩ | ⟨_, hA⟩
    · exact hLinked.resolve_right (fun hNot => hNot hPending)
    · exact h.pending hPending hA

/-- A connection is closed and its entry is erased. -/
theorem Holds.erase (hWf : WellFormed w trace) (h : Holds w trace pending)
    (hObject : w.objects id = some object) (hOpen : object.connection.closed = false)
    (hClosed : object'.connection.closed = true)
    (hLinked : object'.connection.closeCallback = .server ∨ some id ≠ pending)
    (hEvents : ∀ i, ∀ e ∈ events, ¬ Strands i e) :
    Holds { w with
        loop
        objects := Function.update w.objects id (some object')
        connections := w.connections.filter (fun entry => entry.1 ≠ object.connection.fd) }
      (trace ++ events) pending := by
  refine ⟨?_, ?_, ?_, ?_⟩
  · intro i a hEq hOpenA hPending
    rcases Update.some_cases hEq with ⟨rfl, rfl⟩ | ⟨hSame, hA⟩
    · exact absurd (hClosed.symm.trans hOpenA) nofun
    · exact (hWf.mem_filter hObject (h.opened hA hOpenA hPending)).mpr hSame
  · intro fd i a hMem hEq hShut
    have hOld := (List.mem_filter.mp hMem).1
    have hSame : i ≠ id := (hWf.mem_filter hObject hOld).mp hMem
    dsimp only at hEq
    rw [Function.update_of_ne hSame] at hEq
    exact (h.closed hOld hEq hShut).append events
  · intro i hStranded
    obtain ⟨hUnlinked, a, hA, hShut, hMem⟩ := h.stranded
      ((stranded_append (hEvents i)).mp hStranded)
    have hSame : i ≠ id := by
      rintro rfl
      cases hObject.symm.trans hA
      exact absurd (hOpen.symm.trans hShut) nofun
    exact ⟨parted_append _ hUnlinked, a, (Function.update_of_ne hSame ..).trans hA, hShut,
      (hWf.mem_filter hObject hMem).mpr hSame⟩
  · intro i a hPending hEq
    rcases Update.some_cases hEq with ⟨rfl, rfl⟩ | ⟨_, hA⟩
    · exact hLinked.resolve_right (fun hNot => hNot hPending)
    · exact h.pending hPending hA

/-- A connection is closed, and its entry stays. -/
theorem Holds.strand (h : Holds w trace pending) (hObject : w.objects id = some object)
    (hFd : object'.connection.fd = object.connection.fd)
    (hClosed : object'.connection.closed = true)
    (hLinked : object'.connection.closeCallback = .server ∨ some id ≠ pending)
    (hEntry : (object.connection.fd, id) ∈ w.connections)
    (hParted : .unlinked id ∈ trace ++ events ∨ .kept id ∈ trace ++ events) {e : ServerEvent}
    (hEvent : e ∈ events) (hStrands : Strands id e)
    (hEvents : ∀ i, i ≠ id → ∀ e ∈ events, ¬ Strands i e) :
    Holds { w with loop, objects := Function.update w.objects id (some object') }
      (trace ++ events) pending := by
  refine ⟨?_, ?_, ?_, ?_⟩
  · intro i a hEq hOpenA hPendingA
    rcases Update.some_cases hEq with ⟨rfl, rfl⟩ | ⟨_, hA⟩
    · exact absurd (hClosed.symm.trans hOpenA) nofun
    · exact h.opened hA hOpenA hPendingA
  · intro fd i a hMem hEq hShut
    rcases Update.some_cases hEq with ⟨rfl, rfl⟩ | ⟨_, hA⟩
    · exact stranded_iff.mpr ⟨e, List.mem_append_right _ hEvent, hStrands⟩
    · exact (h.closed hMem hA hShut).append events
  · intro i hStranded
    by_cases hSame : i = id
    · subst hSame
      exact ⟨hParted, object', Function.update_self .., hClosed, hFd ▸ hEntry⟩
    · obtain ⟨hUnlinked, a, hA, hShut, hMem⟩ := h.stranded
        ((stranded_append (hEvents i hSame)).mp hStranded)
      exact ⟨parted_append _ hUnlinked, a, (Function.update_of_ne hSame ..).trans hA, hShut, hMem⟩
  · intro i a hPending hEq
    rcases Update.some_cases hEq with ⟨rfl, rfl⟩ | ⟨_, hA⟩
    · exact hLinked.resolve_right (fun hNot => hNot hPending)
    · exact h.pending hPending hA

/-- A new object with a descriptor that was not open. It is not in the map yet. -/
theorem WellFormed.add (h : WellFormed w trace) (object : Object)
    (hFd : w.descriptors object.connection.fd = false)
    (hLinked : object.connection.closeCallback = .server) :
    WellFormed { w with
        descriptors := Function.update w.descriptors object.connection.fd true
        fresh := w.fresh + 1
        objects := Function.update w.objects w.fresh (some object) } trace := by
  have hOld : ∀ {i a}, w.objects i = some a → i ≠ w.fresh ∧
      a.connection.fd ≠ object.connection.fd := by
    intro i a hA
    refine ⟨Nat.ne_of_lt (h.bounded hA), fun hEq => ?_⟩
    have hHeld := h.descriptor hA
    rw [hEq, hFd] at hHeld
    cases hHeld
  refine ⟨?_, h.keys, ?_, ?_, ?_, ?_⟩
  · intro fd i hMem
    obtain ⟨a, hA, hFdA⟩ := h.mapped hMem
    exact ⟨a, (Function.update_of_ne (hOld hA).1 ..).trans hA, hFdA⟩
  · intro i a hEq
    rcases Update.some_cases hEq with ⟨rfl, _⟩ | ⟨_, hA⟩
    · exact Nat.lt_succ_self _
    · exact Nat.lt_succ_of_lt (h.bounded hA)
  · intro i a hEq
    rcases Update.some_cases hEq with ⟨_, rfl⟩ | ⟨_, hA⟩
    · exact Function.update_self ..
    · exact (Function.update_of_ne (hOld hA).2 ..).trans (h.descriptor hA)
  · intro i j a b hI hJ hFds
    rcases Update.some_cases hI with ⟨rfl, rfl⟩ | ⟨_, hA⟩
    · rcases Update.some_cases hJ with ⟨rfl, _⟩ | ⟨_, hB⟩
      · rfl
      · exact absurd hFds.symm (hOld hB).2
    · rcases Update.some_cases hJ with ⟨_, rfl⟩ | ⟨_, hB⟩
      · exact absurd hFds (hOld hA).2
      · exact h.distinct hA hB hFds
  · intro i a hEq hNot
    rcases Update.some_cases hEq with ⟨_, rfl⟩ | ⟨_, hA⟩
    · exact absurd hLinked hNot
    · exact h.unlinked hA hNot

theorem Holds.add (hWf : WellFormed w trace) (h : Holds w trace none)
    (hLinked : object.connection.closeCallback = .server) (descriptors : Int → Bool) :
    Holds { w with
        descriptors
        fresh := w.fresh + 1
        objects := Function.update w.objects w.fresh (some object) } trace (some w.fresh) := by
  have hNe : ∀ {i a}, w.objects i = some a → i ≠ w.fresh := fun hA => Nat.ne_of_lt (hWf.bounded hA)
  refine ⟨?_, ?_, ?_, ?_⟩
  · intro i a hEq hOpen hPending
    have hSame : i ≠ w.fresh := fun hEq => hPending (congrArg some hEq)
    dsimp only at hEq
    rw [Function.update_of_ne hSame] at hEq
    exact h.opened hEq hOpen nofun
  · intro fd i a hMem hEq hShut
    obtain ⟨b, hB, _⟩ := hWf.mapped hMem
    dsimp only at hEq
    rw [Function.update_of_ne (hNe hB)] at hEq
    exact h.closed hMem hEq hShut
  · intro i hStranded
    obtain ⟨hUnlinked, a, hA, hShut, hMem⟩ := h.stranded hStranded
    exact ⟨hUnlinked, a, (Function.update_of_ne (hNe hA) ..).trans hA, hShut, hMem⟩
  · intro i a hPending hEq
    cases hPending
    dsimp only at hEq
    rw [Function.update_self] at hEq
    cases hEq
    exact hLinked

variable {before : TcpConnection} {o : ConnOutcome} {copy : Option Thrown}

theorem absorb_of_quiet (h : .closed .server ∉ o.events) :
    (w.absorb id before o copy).state = w.put id o.state := by
  simp only [absorb, if_neg h, Outcome.ok_state]

theorem absorb_of_closed (h : .closed .server ∈ o.events) :
    (w.absorb id before o copy).state =
      ((w.put id o.state).handleClose id o.state.connection.fd copy).state := by
  simp only [absorb, if_pos h]

/-- The copy of `close_callback_` throws. -/
def Uncopied (w : TcpServer) (copy : Option Thrown) : Prop := copy ≠ none ∧ w.closeCallback = true

theorem handleClose_copied {c : Conn} (h : ¬ Uncopied w copy) :
    (w.put id c).handleClose id fd copy = .ok ((w.put id c).erase fd) [] := by
  cases copy with
  | none => rfl
  | some =>
    have hUnset : ¬ (w.put id c).closeCallback = true := fun hSet => h ⟨nofun, hSet⟩
    simp only [handleClose, if_neg hUnset]

theorem handleClose_uncopied {c : Conn} (h : Uncopied w copy) :
    ((w.put id c).handleClose id fd copy).state = w.put id c ∧
      ((w.put id c).handleClose id fd copy).events =
        if id ∈ w.connections.map Prod.snd then [.kept id] else [] := by
  obtain ⟨hSome, hSet⟩ := h
  cases copy with
  | none => exact absurd rfl hSome
  | some =>
    have hPut : (w.put id c).closeCallback = true := hSet
    simp only [handleClose, if_pos hPut]
    exact ⟨rfl, rfl⟩

/-- An object that is not in the map holds a descriptor that is not in it. -/
theorem WellFormed.erase_unmapped (h : WellFormed w trace) (hObject : w.objects id = some object)
    (hNot : id ∉ w.connections.map Prod.snd) :
    w.connections.filter (fun entry => entry.1 ≠ object.connection.fd) = w.connections := by
  apply List.filter_eq_self.mpr
  rintro ⟨fd, i⟩ hMem
  refine (List.mem_filter.mp ((h.mem_filter hObject hMem).mpr ?_)).2
  rintro rfl
  exact hNot (List.mem_map_of_mem hMem)

theorem act_of_object (hObject : w.objects id = some object) (f : Conn → ConnOutcome) :
    w.act id f copy =
      w.absorb id object.connection (f ⟨object.connection, w.loop, object.pc⟩) copy := by
  simp only [act, hObject]

theorem objects_absorb : (w.absorb id before o copy).state.objects =
    Function.update w.objects id (some ⟨o.state.connection, o.state.pc⟩) := by
  by_cases hClosed : .closed .server ∈ o.events
  · rw [absorb_of_closed hClosed]
    by_cases hCopy : Uncopied w copy
    · rw [(handleClose_uncopied hCopy).1]
      rfl
    · rw [handleClose_copied hCopy]
      rfl
  · rw [absorb_of_quiet hClosed]
    rfl

/-- What a call strands: the connection it was made on, closed under another callback or
kept. -/
theorem strands_absorb {i : Nat} {e : ServerEvent} (hMem : e ∈ (w.absorb id before o copy).events)
    (hStrands : Strands i e) :
    i = id ∧ ((∃ callback, callback ≠ .server ∧ .closed callback ∈ o.events) ∨
      .closed .server ∈ o.events ∧ Uncopied w copy ∧ id ∈ w.connections.map Prod.snd) := by
  simp only [absorb, List.mem_append, List.mem_map] at hMem
  rcases hMem with (hUnlinked | ⟨e', hIn, rfl⟩) | hClosing
  · split at hUnlinked
    · cases List.mem_singleton.mp hUnlinked
      rcases hStrands with hEq | ⟨callback, -, hEq⟩ <;> cases hEq
    · cases hUnlinked
  · rcases hStrands with hEq | ⟨callback, hNot, hEq⟩
    · cases hEq
    · cases hEq
      exact ⟨rfl, .inl ⟨callback, hNot, hIn⟩⟩
  · split at hClosing
    · rename_i hServer
      by_cases hCopy : Uncopied w copy
      · rw [(handleClose_uncopied hCopy).2] at hClosing
        split at hClosing
        · rename_i hMapped
          cases List.mem_singleton.mp hClosing
          rcases hStrands with hEq | ⟨callback, -, hEq⟩
          · cases hEq
            exact ⟨rfl, .inr ⟨hServer, hCopy, hMapped⟩⟩
          · cases hEq
        · cases hClosing
      · rw [handleClose_copied hCopy] at hClosing
        cases hClosing
    · cases hClosing

/-- A call on a connection, with the server's close callback if it comes to that. -/
theorem inv_absorb (hWf : WellFormed w trace) (h : Holds w trace pending)
    (hObject : w.objects id = some object)
    (hFate : Conn.Fate ⟨object.connection, w.loop, object.pc⟩ o)
    (hLinked : o.state.connection.closeCallback = .server ∨ some id ≠ pending) :
    WellFormed (w.absorb id object.connection o copy).state
        (trace ++ (w.absorb id object.connection o copy).events) ∧
      Holds (w.absorb id object.connection o copy).state
        (trace ++ (w.absorb id object.connection o copy).events) pending := by
  have hFd : o.state.connection.fd = object.connection.fd := hFate.fd
  have hUnlinked : o.state.connection.closeCallback ≠ .server →
      .unlinked id ∈ trace ++ (w.absorb id object.connection o copy).events := by
    intro hNot
    by_cases hBefore : object.connection.closeCallback = .server
    · apply List.mem_append_right
      simp [absorb, hBefore, hNot]
    · exact List.mem_append_left _ (hWf.unlinked hObject hBefore)
  rcases hFate.ends with ⟨hSame, hNever⟩ | ⟨hOpen, hShut, hOnce⟩
  · rw [absorb_of_quiet (hNever .server)]
    refine ⟨hWf.replace hObject hFd (List.Sublist.refl _) hUnlinked, h.replace hObject hFd hSame
      hLinked ?_⟩
    intro i e hMem hStrands
    rcases (strands_absorb hMem hStrands).2 with ⟨callback, -, hIn⟩ | ⟨hIn, -⟩
      <;> exact hNever _ hIn
  · by_cases hServer : object.connection.closeCallback = .server
    · have hClosed : .closed .server ∈ o.events := (hOnce .server).mpr hServer.symm
      have hOnly : ∀ {callback}, callback ≠ .server → .closed callback ∉ o.events := by
        intro callback hNot hMem
        exact hNot (((hOnce callback).mp hMem).trans hServer)
      by_cases hKept : Uncopied w copy ∧ id ∈ w.connections.map Prod.snd
      · -- The copy throws, and the entry stays.
        obtain ⟨⟨fd, i⟩, hMem, rfl⟩ := List.mem_map.mp hKept.2
        obtain ⟨a, hA, rfl⟩ := hWf.mapped hMem
        cases hObject.symm.trans hA
        have hEvent : .kept i ∈ (w.absorb i object.connection o copy).events := by
          simp only [absorb, if_pos hClosed]
          rw [(handleClose_uncopied hKept.1).2, if_pos (List.mem_map_of_mem hMem)]
          simp
        rw [absorb_of_closed hClosed, (handleClose_uncopied hKept.1).1]
        refine ⟨hWf.replace hObject hFd (List.Sublist.refl _) hUnlinked,
          h.strand hObject hFd hShut hLinked hMem (.inr (List.mem_append_right _ hEvent)) hEvent
          (.inl rfl) ?_⟩
        exact fun j hNe e hIn hStrands => hNe (strands_absorb hIn hStrands).1
      · -- The entry is erased, or there is none.
        have hState : (w.absorb id object.connection o copy).state = (w.put id o.state).erase
            object.connection.fd := by
          rw [absorb_of_closed hClosed, hFd]
          by_cases hCopy : Uncopied w copy
          · have hNone := hWf.erase_unmapped hObject (fun hMapped => hKept ⟨hCopy, hMapped⟩)
            rw [(handleClose_uncopied hCopy).1, erase]
            exact congrArg (fun connections => { w.put id o.state with connections }) hNone.symm
          · rw [handleClose_copied hCopy, Outcome.ok_state]
        rw [hState]
        refine ⟨hWf.replace hObject hFd List.filter_sublist hUnlinked, h.erase hWf hObject hOpen
          hShut hLinked ?_⟩
        intro i e hMem hStrands
        rcases (strands_absorb hMem hStrands).2 with ⟨callback, hNot, hIn⟩ | ⟨-, hCopy⟩
        · exact hOnly hNot hIn
        · exact hKept hCopy
    · have hPending : some id ≠ pending := fun hEq => hServer (h.pending hEq hObject)
      have hOther : .closed object.connection.closeCallback ∈ o.events := (hOnce _).mpr rfl
      have hEvent : .connection id (.closed object.connection.closeCallback) ∈
          (w.absorb id object.connection o copy).events := by
        simp only [absorb, List.mem_append, List.mem_map]
        exact .inl (.inr ⟨_, hOther, rfl⟩)
      rw [absorb_of_quiet (fun hMem => hServer ((hOnce .server).mp hMem).symm)]
      refine ⟨hWf.replace hObject hFd (List.Sublist.refl _) hUnlinked,
        h.strand hObject hFd hShut hLinked (h.opened hObject hOpen hPending)
          (.inl (List.mem_append_left _ (hWf.unlinked hObject hServer))) hEvent
          (.inr ⟨_, hServer, rfl⟩) ?_⟩
      exact fun j hNe e hIn hStrands => hNe (strands_absorb hIn hStrands).1

/-- What does not concern the map. -/
theorem WellFormed.frame {w' : TcpServer} (h : WellFormed w trace)
    (hObjects : w'.objects = w.objects) (hConnections : w'.connections = w.connections)
    (hFresh : w'.fresh = w.fresh)
    (hDescriptors : ∀ {i a}, w.objects i = some a → w'.descriptors a.connection.fd = true) :
    WellFormed w' (trace ++ events) where
  mapped := by
    rw [hObjects, hConnections]
    exact h.mapped
  keys := by
    rw [hConnections]
    exact h.keys
  bounded := by
    rw [hObjects, hFresh]
    exact h.bounded
  descriptor := by
    rw [hObjects]
    exact hDescriptors
  distinct := by
    rw [hObjects]
    exact h.distinct
  unlinked := by
    rw [hObjects]
    exact fun hA hNot => List.mem_append_left _ (h.unlinked hA hNot)

theorem Holds.frame {w' : TcpServer} (h : Holds w trace pending) (hObjects : w'.objects = w.objects)
    (hConnections : w'.connections = w.connections)
    (hEvents : ∀ i, ∀ e ∈ events, ¬ Strands i e) :
    Holds w' (trace ++ events) pending where
  opened := by
    rw [hObjects, hConnections]
    exact h.opened
  closed := by
    rw [hObjects, hConnections]
    exact fun hMem hA hShut => (h.closed hMem hA hShut).append events
  stranded := by
    rw [hObjects, hConnections]
    intro i hStranded
    obtain ⟨hUnlinked, hRest⟩ := h.stranded ((stranded_append (hEvents i)).mp hStranded)
    exact ⟨parted_append _ hUnlinked, hRest⟩
  pending := by
    rw [hObjects]
    exact h.pending

/-- The connection that was being accepted is in the map or closed. -/
theorem Holds.settle (h : Holds w trace (some id))
    (hSettled : ∀ a, w.objects id = some a → a.connection.closed = false →
      (a.connection.fd, id) ∈ w.connections) : Holds w trace none where
  opened := by
    intro i a hA hOpen _
    by_cases hSame : i = id
    · subst hSame
      exact hSettled a hA hOpen
    · exact h.opened hA hOpen (fun hEq => hSame (Option.some.inj hEq))
  closed := h.closed
  stranded := h.stranded
  pending := nofun

end Objects

/-- In the middle of `handle_accept`: the new connection exists, open and with the
server's callback. -/
structure Accepting (w : TcpServer) (trace : List ServerEvent) (fd : Int) (id : Nat) : Prop where
  wellFormed : WellFormed w trace
  holds : Holds w trace (some id)
  object : ∃ object, w.objects id = some object ∧ object.connection.fd = fd ∧
    object.connection.closed = false ∧ object.connection.closeCallback = .server

namespace Accepting

variable {w : TcpServer} {trace : List ServerEvent} {fd : Int} {id : Nat}

/-- A call on the new connection that leaves it open. -/
theorem act {f : Conn → ConnOutcome} (h : Accepting w trace fd id) (hFate : ∀ c, Conn.Fate c (f c))
    (hOpen : ∀ c, (f c).state.connection.closed = c.connection.closed)
    (hCallback : ∀ c, (f c).state.connection.closeCallback = c.connection.closeCallback)
    (hEvents : ∀ c callback, .closed callback ∉ (f c).events) :
    Accepting (w.act id f none).state (trace ++ (w.act id f none).events) fd id ∧
      (w.act id f none).state.connections = w.connections := by
  obtain ⟨object, hObject, hFd, hFalse, hLinked⟩ := h.object
  obtain ⟨hWf, hHolds⟩ := inv_absorb h.wellFormed h.holds hObject (hFate _)
    (.inl ((hCallback _).trans hLinked))
  rw [act_of_object hObject]
  refine ⟨⟨hWf, hHolds, ?_⟩, ?_⟩
  · rw [absorb_of_quiet (hEvents _ .server)]
    exact ⟨⟨_, _⟩, Function.update_self .., (hFate _).fd.trans hFd, (hOpen _).trans hFalse,
      (hCallback _).trans hLinked⟩
  · rw [absorb_of_quiet (hEvents _ .server)]
    rfl

theorem giveCallback (h : Accepting w trace fd id) (fault : Option AcceptFault) :
    Accepting (w.giveCallback id fault).state
      (trace ++ (w.giveCallback id fault).events) fd id := by
  unfold TcpServer.giveCallback
  split
  · split
    · simpa using h
    · exact (h.act (fun c => Conn.fate_same rfl rfl rfl (by simp)) (fun _ => rfl) (fun _ => rfl)
        (by simp)).1
  · simpa using h

/-- `emplace` finds no other entry for the descriptor, since the new connection holds
it. -/
theorem emplace (h : Accepting w trace fd id) :
    Accepting (w.emplace fd id) trace fd id ∧ (fd, id) ∈ (w.emplace fd id).connections := by
  obtain ⟨object, hObject, hFd, hOpen, hLinked⟩ := h.object
  unfold TcpServer.emplace
  split
  · rename_i hKey
    obtain ⟨⟨fd', j⟩, hMem, hEq⟩ := List.mem_map.mp hKey
    cases hEq
    obtain ⟨a, hA, hFdA⟩ := h.wellFormed.mapped hMem
    cases h.wellFormed.distinct hA hObject (hFdA.trans hFd.symm)
    exact ⟨h, hMem⟩
  · rename_i hKey
    refine ⟨⟨⟨?_, ?_, h.wellFormed.bounded, h.wellFormed.descriptor, h.wellFormed.distinct,
      h.wellFormed.unlinked⟩, ⟨?_, ?_, ?_, h.holds.pending⟩, h.object⟩, by simp⟩
    · intro fd' i hMem
      rcases List.mem_append.mp hMem with hOld | hNew
      · exact h.wellFormed.mapped hOld
      · cases List.mem_singleton.mp hNew
        exact ⟨object, hObject, hFd⟩
    · rw [List.map_append]
      exact List.nodup_append.mpr ⟨h.wellFormed.keys, List.pairwise_singleton _ _, by
        rintro fd' hOld _ hNew rfl
        cases List.mem_singleton.mp hNew
        exact hKey hOld⟩
    · exact fun hA hOpenA hPending => List.mem_append_left _ (h.holds.opened hA hOpenA hPending)
    · intro fd' i a hMem hA hShut
      rcases List.mem_append.mp hMem with hOld | hNew
      · exact h.holds.closed hOld hA hShut
      · cases List.mem_singleton.mp hNew
        cases hObject.symm.trans hA
        exact absurd (hOpen.symm.trans hShut) nofun
    · intro i hStranded
      obtain ⟨hUnlinked, a, hA, hShut, hMem⟩ := h.holds.stranded hStranded
      exact ⟨hUnlinked, a, hA, hShut, List.mem_append_left _ hMem⟩

theorem insert (h : Accepting w trace fd id) (fault : Option AcceptFault) :
    Accepting (w.insert fd id fault).state (trace ++ (w.insert fd id fault).events) fd id ∧
      ((w.insert fd id fault).error = none →
        (fd, id) ∈ (w.insert fd id fault).state.connections) := by
  unfold TcpServer.insert
  split
  · exact ⟨by simpa using h, nofun⟩
  · obtain ⟨hAccepting, hMem⟩ := h.emplace
    exact ⟨by simpa using hAccepting, fun _ => hMem⟩

theorem start (h : Accepting w trace fd id) (fails : Bool) :
    Accepting (w.act id (·.start fails) none).state
      (trace ++ (w.act id (·.start fails) none).events) fd id ∧
      (w.act id (·.start fails) none).state.connections = w.connections := by
  have hStart : ∀ c : Conn, (c.start fails).state.connection.closed = c.connection.closed ∧
      (c.start fails).state.connection.closeCallback = c.connection.closeCallback ∧
      ∀ callback, .closed callback ∉ (c.start fails).events := by
    intro c
    unfold Conn.start
    split
    · exact ⟨rfl, rfl, by simp⟩
    · split <;> exact ⟨rfl, rfl, by simp⟩
  exact h.act (fun c => c.fate_start fails) (fun c => (hStart c).1) (fun c => (hStart c).2.1)
    (fun c => (hStart c).2.2)

theorem announce (h : Accepting w trace fd id) :
    Accepting (w.announce id).state (trace ++ (w.announce id).events) fd id ∧
      (w.announce id).state.connections = w.connections := by
  unfold TcpServer.announce
  split
  · refine ⟨⟨h.wellFormed.frame rfl rfl rfl h.wellFormed.descriptor, h.holds.frame rfl rfl
      (by simp [Strands]), h.object⟩, rfl⟩
  · exact ⟨by simpa using h, rfl⟩

theorem setUp (h : Accepting w trace fd id) (fault : Option AcceptFault) :
    Accepting (w.setUp fd id fault).state (trace ++ (w.setUp fd id fault).events) fd id ∧
      ((w.setUp fd id fault).error = none →
        (fd, id) ∈ (w.setUp fd id fault).state.connections) := by
  have hCallback := h.giveCallback fault
  have hInserted : Accepting ((w.giveCallback id fault).andThen (·.insert fd id fault)).state
      (trace ++ ((w.giveCallback id fault).andThen (·.insert fd id fault)).events) fd id :=
    Outcome.andThen_keeps (P := (Accepting · · fd id)) hCallback (fun hMid => (hMid.insert fault).1)
  have hStarted := Outcome.andThen_keeps (P := (Accepting · · fd id))
    (f := (·.act id (·.start (fault = some .start)) none)) hInserted (fun hMid => (hMid.start _).1)
  refine ⟨Outcome.andThen_keeps (P := (Accepting · · fd id)) hStarted (fun hMid => hMid.announce.1),
    fun hNone => ?_⟩
  obtain ⟨hNone', _, hState⟩ := Outcome.andThen_returned hNone
  obtain ⟨hNone'', _, hState'⟩ := Outcome.andThen_returned hNone'
  obtain ⟨_, hInsert, hState''⟩ := Outcome.andThen_returned hNone''
  rw [TcpServer.setUp, hState, hStarted.announce.2, hState', (hInserted.start _).2, hState'']
  exact (hCallback.insert fault).2 hInsert

end Accepting

/-- Between steps no connection is half accepted. -/
def Inv (w : TcpServer) (trace : List ServerEvent) : Prop := WellFormed w trace ∧ Holds w trace none

namespace Inv

variable {w w' : TcpServer} {trace events : List ServerEvent} {fd : Int} {id : Nat}
  {object : Object}

theorem start (loop : Io.EventLoop) (descriptors : Int → Bool) : Inv (create loop descriptors) [] :=
  ⟨⟨nofun, List.nodup_nil, nofun, nofun, nofun, nofun⟩, ⟨nofun, nofun, nofun, nofun⟩⟩

theorem frame (h : Inv w trace) (hObjects : w'.objects = w.objects)
    (hConnections : w'.connections = w.connections) (hFresh : w'.fresh = w.fresh)
    (hDescriptors : ∀ {i a}, w.objects i = some a → w'.descriptors a.connection.fd = true)
    (hEvents : ∀ i, ∀ e ∈ events, ¬ Strands i e) : Inv w' (trace ++ events) :=
  ⟨h.1.frame hObjects hConnections hFresh hDescriptors, h.2.frame hObjects hConnections hEvents⟩

theorem threw {error : Option Thrown} (h : Inv w trace) :
    Inv w (trace ++ (error.map ServerEvent.threw).toList) :=
  h.frame rfl rfl rfl h.1.descriptor (by cases error <;> simp [Strands])

/-- A call on a connection between steps. -/
theorem act {f : Conn → ConnOutcome} {copy : Option Thrown} (h : Inv w trace)
    (hFate : ∀ object, w.objects id = some object →
      Conn.Fate ⟨object.connection, w.loop, object.pc⟩ (f ⟨object.connection, w.loop, object.pc⟩)) :
    Inv (w.act id f copy).state (trace ++ (w.act id f copy).events) := by
  unfold TcpServer.act
  cases hObject : w.objects id with
  | none => simpa using h
  | some object => exact inv_absorb h.1 h.2 hObject (hFate object hObject) (.inr nofun)

/-- After a failure the new connection is closed, and leaves the map unless the server's
callback throws. -/
theorem abandon (h : Accepting w trace fd id) (copy : Option Thrown) :
    Inv (w.act id Conn.close copy).state (trace ++ (w.act id Conn.close copy).events) := by
  obtain ⟨object, hObject, _, hOpen, hLinked⟩ := h.object
  have hClose := Conn.close_of_open (c := ⟨object.connection, w.loop, object.pc⟩) hOpen
  have hCallback : (Conn.mk object.connection w.loop object.pc).close.state.connection.closeCallback
      = .server := by
    rw [hClose.1]
    exact hLinked
  obtain ⟨hWf, hHolds⟩ := inv_absorb h.wellFormed h.holds hObject (Conn.fate_close _)
    (.inl hCallback)
  rw [act_of_object hObject]
  refine ⟨hWf, hHolds.settle fun a hA hOpenA => ?_⟩
  rw [objects_absorb, Function.update_self, Option.some.injEq] at hA
  subst hA
  exact absurd ((Conn.closed_close _).symm.trans hOpenA) nofun

theorem setUp (h : Accepting w trace fd id) (fault : Option AcceptFault) (copy : Option Thrown) :
    Inv (TcpServer.abandon (w.setUp fd id fault) id copy).state
      (trace ++ (TcpServer.abandon (w.setUp fd id fault) id copy).events) := by
  obtain ⟨hAccepting, hMapped⟩ := h.setUp fault
  cases hError : (w.setUp fd id fault).error with
  | none =>
    rw [TcpServer.abandon, hError]
    obtain ⟨object, hObject, hFd, _⟩ := hAccepting.object
    refine ⟨hAccepting.wellFormed, hAccepting.holds.settle fun a hA _ => ?_⟩
    cases hObject.symm.trans hA
    rw [hFd]
    exact hMapped hError
  | some =>
    rw [TcpServer.abandon, hError, Outcome.fail_state, Outcome.fail_events, ← List.append_assoc]
    exact abandon hAccepting copy

theorem handleAccept (h : Inv w trace) (hNonneg : 0 ≤ fd) (hFree : w.descriptors fd = false)
    (fault : Option AcceptFault) (copy : Option Thrown) :
    Inv (w.handleAccept fd fault copy).state (trace ++ (w.handleAccept fd fault copy).events) := by
  have hOther : ∀ {i a}, w.objects i = some a → a.connection.fd ≠ fd := by
    rintro i a hA rfl
    exact absurd ((h.1.descriptor hA).symm.trans hFree) nofun
  have hCreate : ∀ address, ∃ connection, TcpConnection.create fd address = .ok connection ∧
      connection.fd = fd ∧ connection.closed = false := by
    intro address
    exact ⟨_, if_neg (Int.not_lt.mpr hNonneg), rfl, rfl⟩
  unfold TcpServer.handleAccept
  rw [Outcome.ok_andThen]
  dsimp only
  split
  · refine h.frame rfl rfl rfl (fun hA => ?_) (by simp [Strands])
    simp only [Outcome.fail_state, release, Function.update_of_ne (hOther hA)]
    exact h.1.descriptor hA
  · refine h.frame rfl rfl rfl (fun hA => ?_) (by simp [Strands])
    exact (Function.update_of_ne (hOther hA) ..).trans (h.1.descriptor hA)
  · obtain ⟨connection, hOk, rfl, hOpen⟩ := hCreate w.fresh
    simp only [hOk]
    rw [← List.append_assoc]
    apply setUp
    have hBefore : Inv w (trace ++ [.opened connection.fd]) :=
      h.frame rfl rfl rfl h.1.descriptor (by simp [Strands])
    exact ⟨hBefore.1.add ⟨{ connection with closeCallback := .server }, .idle⟩ hFree rfl,
      hBefore.2.add hBefore.1 rfl _, ⟨_, Function.update_self .., rfl, hOpen, rfl⟩⟩

/-- The last reference to a connection goes away. What nobody refers to is not in the
map. -/
theorem drop (h : Inv w trace) (hObject : w.objects id = some object)
    (hNot : id ∉ w.connections.map Prod.snd) :
    Inv (w.destroy id object) (trace ++ [.released object.connection.fd]) := by
  have hObjects := w.objects_destroy id object
  have hDescriptors := w.descriptors_destroy id object
  have hConnections : (w.destroy id object).connections = w.connections := by
    simp only [destroy, release]
    split <;> rfl
  have hFresh : (w.destroy id object).fresh = w.fresh := by
    simp only [destroy, release]
    split <;> rfl
  have hOld : ∀ {i a}, (w.destroy id object).objects i = some a → i ≠ id ∧
      w.objects i = some a := by
    intro i a hA
    rw [hObjects] at hA
    obtain ⟨hSame, hA⟩ := Update.of_none hA
    exact ⟨hSame, hA⟩
  have hKept : ∀ {fd i a}, (fd, i) ∈ w.connections → w.objects i = some a →
      (w.destroy id object).objects i = some a := by
    intro fd i a hMem hA
    have hSame : i ≠ id := by
      rintro rfl
      exact hNot (List.mem_map_of_mem hMem)
    rw [hObjects, Function.update_of_ne hSame, hA]
  refine ⟨⟨?_, ?_, ?_, ?_, ?_, ?_⟩, ⟨?_, ?_, ?_, by simp⟩⟩
  · rw [hConnections]
    intro fd i hMem
    obtain ⟨a, hA, hFd⟩ := h.1.mapped hMem
    exact ⟨a, hKept hMem hA, hFd⟩
  · rw [hConnections]
    exact h.1.keys
  · intro i a hA
    rw [hFresh]
    exact h.1.bounded (hOld hA).2
  · intro i a hA
    obtain ⟨hSame, hBefore⟩ := hOld hA
    have hOther : a.connection.fd ≠ object.connection.fd := fun hEq =>
        hSame (h.1.distinct hBefore hObject hEq)
    rw [hDescriptors, Function.update_of_ne hOther]
    exact h.1.descriptor hBefore
  · intro i j a b hA hB hFds
    exact h.1.distinct (hOld hA).2 (hOld hB).2 hFds
  · intro i a hA hCallback
    exact List.mem_append_left _ (h.1.unlinked (hOld hA).2 hCallback)
  · rw [hConnections]
    exact fun hA hOpen hPending => h.2.opened (hOld hA).2 hOpen hPending
  · rw [hConnections]
    exact fun hMem hA hShut => (h.2.closed hMem (hOld hA).2 hShut).append _
  · rw [hConnections]
    intro i hStranded
    obtain ⟨hUnlinked, a, hA, hShut, hMem⟩ := h.2.stranded
      ((stranded_append (by simp [Strands])).mp hStranded)
    exact ⟨parted_append _ hUnlinked, a, hKept hMem hA, hShut, hMem⟩

/-- Every step keeps the map of the server and the connections that it holds. -/
theorem next (h : Inv w trace) {a : ServerAction} (hNext : w.next a = some (w', events)) :
    Inv w' (trace ++ events) := by
  cases a with
  | accept fd fault copy =>
    simp only [TcpServer.next] at hNext
    split at hNext
    · rename_i hGuard
      cases hNext
      rw [← List.append_assoc]
      exact (h.handleAccept hGuard.1 hGuard.2 fault copy).threw
    · cases hNext
  | callbackReturned =>
    simp only [TcpServer.next] at hNext
    split at hNext
    · cases hNext
      exact h.frame rfl rfl rfl h.1.descriptor nofun
    · cases hNext
  | callbackThrew id =>
    simp only [TcpServer.next] at hNext
    split at hNext
    · cases hNext
      rw [← List.append_assoc]
      have hErased : Inv { w with accepting := w.accepting.erase id } trace :=
        ⟨⟨h.1.mapped, h.1.keys, h.1.bounded,
        h.1.descriptor, h.1.distinct, h.1.unlinked⟩,
        ⟨h.2.opened, h.2.closed, h.2.stranded, h.2.pending⟩⟩
      exact (hErased.act (fun _ _ => Conn.fate_close _)).threw
    · cases hNext
  | connection id a copy =>
    have hCall : ∀ object, w.objects id = some object →
        (Conn.mk object.connection w.loop object.pc).Enabled a →
          some (report (w.act id (·.perform a) copy)) = some (w', events) →
          Inv w' (trace ++ events) := by
      intro object hObject hEnabled hEq
      cases hEq
      rw [← List.append_assoc]
      refine (h.act fun object' hObject' => ?_).threw
      cases hObject.symm.trans hObject'
      exact Conn.fate_perform hEnabled
    cases a with
    | elsewhere => cases hNext
    | _ =>
      simp only [TcpServer.next] at hNext
      split at hNext
      · cases hNext
      · rename_i object hObject
        split at hNext
        · exact hCall object hObject ‹_› hNext
        · cases hNext
  | drop id =>
    simp only [TcpServer.next] at hNext
    split at hNext
    · cases hNext
    · rename_i object hObject
      split at hNext
      · rename_i hGuard
        cases hNext
        exact h.drop hObject hGuard.2.1
      · cases hNext
  | setMessageCallback | setConnectionCallback | setCloseCallback =>
    cases hNext
    exact h.frame rfl rfl rfl h.1.descriptor nofun

theorem of_reaches {start : TcpServer} (hStart : Inv start [])
    (h : (serverMachine start).Reaches w trace) : Inv w trace :=
  h.invariant (P := Inv) hStart (fun _ hInv hNext => hInv.next hNext)

end Inv

section Shutdown

variable {w w' : TcpServer} {trace : List ServerEvent} {id : Nat} {fd : Int} {object : Object}

/-- Closing a connection that is open and linked takes its entry out, and nothing else
changes in the map or in the other objects. -/
theorem close_of_linked (hObject : w.objects id = some object)
    (hOpen : object.connection.closed = false) (hLinked : object.connection.closeCallback = .server)
    (hUnset : w.closeCallback = false) (copy : Option Thrown) :
    (w.act id Conn.close copy).state.connections =
        w.connections.filter (fun entry => entry.1 ≠ object.connection.fd) ∧
      (w.act id Conn.close copy).state.closeCallback = false ∧
      ∀ i, i ≠ id → (w.act id Conn.close copy).state.objects i = w.objects i := by
  have hClose := Conn.close_of_open (c := ⟨object.connection, w.loop, object.pc⟩) hOpen
  have hMem : ConnEvent.closed .server ∈ (Conn.mk object.connection w.loop object.pc).close.events
      := by
    rw [hClose.2, hLinked]
    exact List.mem_singleton_self _
  have hCopied : ¬ Uncopied w copy := by
    rintro ⟨-, hSet⟩
    exact absurd (hUnset.symm.trans hSet) nofun
  rw [act_of_object hObject, absorb_of_closed hMem, handleClose_copied hCopied]
  refine ⟨?_, hUnset, fun i hNe => Function.update_of_ne hNe ..⟩
  rw [(Conn.fate_close _).fd]
  rfl

/-- Closing any other connection leaves its entry there, with a closed connection. -/
theorem close_of_unlinked (hObject : w.objects id = some object)
    (hOther : object.connection.closed = true ∨ object.connection.closeCallback ≠ .server)
    (copy : Option Thrown) :
    (w.act id Conn.close copy).state.connections = w.connections ∧
      ¬ (w.act id Conn.close copy).state.Open id := by
  have hQuiet : ConnEvent.closed .server ∉ (Conn.mk object.connection w.loop object.pc).close.events
      := by
    intro hMem
    rcases (Conn.fate_close _).ends with ⟨_, hNever⟩ | ⟨hOpen, _, hOnce⟩
    · exact hNever _ hMem
    · have hServer := ((hOnce _).mp hMem).symm
      rcases hOther with hClosed | hNot
      · exact absurd (hOpen.symm.trans hClosed) nofun
      · exact hNot hServer
  rw [act_of_object hObject, absorb_of_quiet hQuiet]
  refine ⟨rfl, ?_⟩
  rintro ⟨a, hA, hOpen⟩
  simp only [put, Function.update_self, Option.some.injEq] at hA
  subst hA
  exact absurd ((Conn.closed_close _).symm.trans hOpen) nofun

theorem Inv.object_of_mapped (h : Inv w trace) (hMapped : w.Mapped id) :
    ∃ fd object, (fd, id) ∈ w.connections ∧ w.objects id = some object ∧
    object.connection.fd = fd := by
  obtain ⟨⟨fd, i⟩, hMem, rfl⟩ := List.mem_map.mp hMapped
  obtain ⟨object, hObject, hFd⟩ := h.1.mapped hMem
  exact ⟨fd, object, hMem, hObject, hFd⟩

/-- With every entry open and linked and the user's callback cleared, each turn of the
destructor's loop takes one entry out and runs no user code. -/
theorem Inv.drains (h : Inv w trace) (hUnset : w.closeCallback = false)
    (hAll : ∀ id, w.Mapped id → w.Open id ∧ w.Linked id) : w.Drains := by
  induction hLength : w.connections.length using Nat.strongRecOn generalizing w trace with
  | _ n ih =>
    by_cases hEmpty : w.connections = []
    · exact .done hEmpty
    · refine .again hEmpty ?_
      rintro w' ⟨fd, id, object, copy, hMem, hObject, hTurn⟩
      obtain ⟨⟨a, hA, hOpen⟩, ⟨b, hB, hLinked⟩⟩ := hAll id (List.mem_map_of_mem hMem)
      cases hObject.symm.trans hA
      cases hObject.symm.trans hB
      have hFd : object.connection.fd = fd := by
        obtain ⟨a, hA, hFd⟩ := h.1.mapped hMem
        cases hObject.symm.trans hA
        exact hFd
      obtain ⟨hConnections, hStill, hObjects⟩ := close_of_linked hObject hOpen hLinked hUnset copy
      rw [if_neg (by simp [hLinked])] at hTurn
      subst hTurn
      have hShorter : (w.act id Conn.close copy).state.connections.length < n := by
        rw [hConnections, ← hLength]
        apply List.length_filter_lt_length_iff_exists.mpr
        exact ⟨(fd, id), hMem, by simp [hFd]⟩
      refine ih _ hShorter (h.act fun _ _ => Conn.fate_close _) hStill (fun i hMapped => ?_) rfl
      obtain ⟨⟨fd', j⟩, hMem', rfl⟩ := List.mem_map.mp hMapped
      rw [hConnections] at hMem'
      have hOld := (List.mem_filter.mp hMem').1
      have hNe : j ≠ id := (h.1.mem_filter hObject hOld).mp hMem'
      obtain ⟨hOpen', hLinked'⟩ := hAll j (List.mem_map_of_mem hOld)
      simp only [Open, Linked, hObjects j hNe]
      exact ⟨hOpen', hLinked'⟩

/-- An entry that is closed or not linked is never taken out. -/
theorem Inv.not_drains (h : Inv w trace) (hMapped : w.Mapped id)
    (hBad : ¬ (w.Open id ∧ w.Linked id)) : ¬ w.Drains := by
  intro hDrains
  induction hDrains generalizing trace with
  | done hEmpty =>
    rw [Mapped, hEmpty] at hMapped
    cases hMapped
  | @again w _ _ ih =>
    obtain ⟨fd, object, hMem, hObject, _⟩ := h.object_of_mapped hMapped
    have hOther : object.connection.closed = true ∨ object.connection.closeCallback ≠ .server := by
      by_contra hNot
      rw [not_or, Bool.not_eq_true, not_not] at hNot
      exact hBad ⟨⟨object, hObject, hNot.1⟩, ⟨object, hObject, hNot.2⟩⟩
    obtain ⟨hConnections, hShut⟩ := close_of_unlinked hObject hOther none
    have hTurn : Iteration w (w.act id Conn.close none).state := by
      refine ⟨fd, id, object, none, hMem, hObject, ?_⟩
      split
      · exact ⟨[], .start⟩
      · rfl
    refine ih _ hTurn (h.act fun _ _ => Conn.fate_close _) ?_ (fun hBoth => hShut hBoth.1)
    rw [Mapped, hConnections]
    exact hMapped

/-- The destructor clears the user's callback, which concerns neither the map nor the
connections. -/
theorem Inv.clear (h : Inv w trace) : Inv { w with closeCallback := false } trace := by
  have hFrame : Inv { w with closeCallback := false } (trace ++ []) :=
    h.frame rfl rfl rfl h.1.descriptor nofun
  rwa [List.append_nil] at hFrame

theorem Inv.shutsDown_iff (h : Inv w trace) :
    w.ShutsDown ↔ ∀ id, w.Mapped id → w.Open id ∧ w.Linked id := by
  refine ⟨fun hDrains id hIn => ?_, h.clear.drains rfl⟩
  by_contra hBad
  exact h.clear.not_drains hIn hBad hDrains

/-- A run after which the map still holds a connection that is closed. -/
theorem not_shutsDown_of_closed {actions : List ServerAction}
    (hRun : ((serverMachine (create .create fun _ => false)).run (create .create fun _ => false)
      actions).map (fun r => (r.1.connections, (r.1.objects 0).map fun object =>
      object.connection.closed)) = some ([(5, 0)], some true)) :
    ∃ w trace, (serverMachine (create .create fun _ => false)).Reaches w trace ∧
      w.Mapped 0 ∧ ¬ w.Open 0 ∧ ¬ w.ShutsDown := by
  obtain ⟨⟨w, trace⟩, hRun, hView⟩ := Option.map_eq_some_iff.mp hRun
  rw [Prod.mk.injEq] at hView
  have hReaches := Machine.Reaches.start.run hRun
  have hMapped : w.Mapped 0 := by
    rw [Mapped, hView.1]
    exact List.mem_singleton_self 0
  have hShut : ¬ w.Open 0 := by
    rintro ⟨object, hObject, hOpen⟩
    have hClosed := hView.2
    rw [hObject, Option.map_some, Option.some.injEq] at hClosed
    exact absurd (hClosed.symm.trans hOpen) nofun
  have hInv := Inv.of_reaches (Inv.start .create fun _ => false) hReaches
  exact ⟨w, _, hReaches, hMapped, hShut, fun hEnds =>
    hShut (hInv.shutsDown_iff.mp hEnds 0 hMapped).1⟩

/-- The same where nobody has replaced a callback of a connection, but the copy of the
server's close callback throws when the connection is closed. -/
theorem not_drains_kept :
    ∃ w trace, (serverMachine (create .create fun _ => false)).Reaches w trace ∧
      w.Mapped 0 ∧ ¬ w.Open 0 ∧ ¬ w.ShutsDown := by
  have hRun : ((serverMachine (create .create fun _ => false)).run (create .create fun _ => false)
      [.setCloseCallback true, .accept 5 none none, .connection 0 .close
        (some (.std .badAlloc))]).map (fun r => (r.1.connections, (r.1.objects 0).map fun object =>
        object.connection.closed)) =
      some ([(5, 0)], some true) := by decide +kernel
  exact not_shutsDown_of_closed hRun

end Shutdown

end TcpServer

end Tinycoro.Net
