import Tinycoro.Library.History
import Tinycoro.Net.Reactor
import Tinycoro.Net.Wiring

/-! The order of the callbacks in a run of the reactor. A connection is closed once, it
speaks only while it is open and after it was announced, and the event loop calls only
channels that are registered with it. -/
namespace Tinycoro.Net

open Effect Transition History

namespace Reactor

/-- What a callback may find in the past. -/
def Protocol (past : List ReactorEvent) : ReactorEvent → Prop
  | .connection k (.closed _) => ∀ callback, .connection k (.closed callback) ∉ past
  | .closeCallback k => .closeCallback k ∉ past
  | .connection k (.message _) =>
    (∀ callback, .connection k (.closed callback) ∉ past) ∧
      (.connected k ∈ past ∨ .unannounced k ∈ past)
  | .called _ _ registered => registered = true
  | .dangling _ => False
  | _ => True

/-- An event that is no callback of a connection and that the protocol allows at any time. -/
def plain : ReactorEvent → Bool
  | .connection _ e => !e.isCallback
  | .closeCallback _ | .dangling _ => false
  | .called _ _ registered => registered
  | _ => true

theorem protocol_plain {past : List ReactorEvent} {e : ReactorEvent} (h : plain e = true) :
    Protocol past e := by
  cases e with
  | connection k e =>
    cases e with
    | message => cases h
    | closed => cases h
    | _ => trivial
  | closeCallback => cases h
  | dangling => cases h
  | called => exact h
  | _ => trivial

/-- An event that closes a connection. -/
def closing : ReactorEvent → Bool
  | .connection _ (.closed _) | .closeCallback _ => true
  | _ => false

theorem closing_plain {e : ReactorEvent} (h : plain e = true) : closing e = false := by
  cases e with
  | connection k e =>
    cases e with
    | closed => cases h
    | _ => rfl
  | closeCallback => cases h
  | _ => rfl

/-- The connections, open ones in particular, against the trace. -/
structure Log (objects : Nat → Option Object) (number : Nat → Nat) (count : Nat)
    (trace : List ReactorEvent) : Prop where
  numbered : ∀ {id object}, objects id = some object → number id < count
  unique : ∀ {i j a b}, objects i = some a → objects j = some b → number i = number j → i = j
  past : ∀ {k callback}, .connection k (.closed callback) ∈ trace → k < count
  fresh : ∀ {id object}, objects id = some object → object.connection.closed = false →
    ∀ callback, .connection (number id) (.closed callback) ∉ trace
  announced : ∀ {id object}, objects id = some object → object.connection.closed = false →
    .connected (number id) ∈ trace ∨ .unannounced (number id) ∈ trace
  answered : ∀ {k}, .closeCallback k ∈ trace → ∃ callback, .connection k (.closed callback) ∈ trace
  protocol : Each Protocol trace

namespace Log

variable {objects objects' : Nat → Option Object} {number : Nat → Nat} {count : Nat}
  {trace events : List ReactorEvent} {id : Nat} {object object' : Object}

/-- Events that close nothing, while no connection is opened again. -/
theorem keeps (h : Log objects number count trace) (hEvents : ∀ e ∈ events, closing e = false)
    (hProtocol : Each Protocol (trace ++ events))
    (hBack : ∀ {id object'}, objects' id = some object' → ∃ object, objects id = some object ∧
      (object'.connection.closed = false → object.connection.closed = false)) :
    Log objects' number count (trace ++ events) := by
  have hClosed : ∀ {k callback}, .connection k (.closed callback) ∈ trace ++ events →
      .connection k (.closed callback) ∈ trace := by
    intro k callback hMem
    exact (List.mem_append.mp hMem).resolve_right fun hNew => absurd (hEvents _ hNew) nofun
  refine ⟨?_, ?_, fun hMem => h.past (hClosed hMem), ?_, ?_, ?_, hProtocol⟩
  · intro id object' hObject'
    obtain ⟨object, hObject, _⟩ := hBack hObject'
    exact h.numbered hObject
  · intro i j a b hA hB hEq
    obtain ⟨_, hA', _⟩ := hBack hA
    obtain ⟨_, hB', _⟩ := hBack hB
    exact h.unique hA' hB' hEq
  · intro id object' hObject' hOpen callback hMem
    obtain ⟨object, hObject, hOpen'⟩ := hBack hObject'
    exact h.fresh hObject (hOpen' hOpen) callback (hClosed hMem)
  · intro id object' hObject' hOpen
    obtain ⟨object, hObject, hOpen'⟩ := hBack hObject'
    exact (h.announced hObject (hOpen' hOpen)).imp (List.mem_append_left _) (List.mem_append_left _)
  · intro k hMem
    rcases List.mem_append.mp hMem with hOld | hNew
    · obtain ⟨callback, hMem'⟩ := h.answered hOld
      exact ⟨callback, List.mem_append_left _ hMem'⟩
    · exact absurd (hEvents _ hNew) nofun

theorem plain (h : Log objects number count trace) (hPlain : ∀ e ∈ events, plain e = true)
    (hBack : ∀ {id object'}, objects' id = some object' → ∃ object, objects id = some object ∧
      (object'.connection.closed = false → object.connection.closed = false)) :
    Log objects' number count (trace ++ events) := by
  refine h.keeps (fun e he => closing_plain (hPlain e he)) (each_append.mpr ⟨h.protocol, ?_⟩) hBack
  rintro before e after rfl
  exact protocol_plain (hPlain e (by simp))

/-- A connection, which may have changed, is replaced by what it is after a call. -/
theorem update_back (hObject : objects id = some object)
    (hClosed : object'.connection.closed = false → object.connection.closed = false) {i : Nat}
    {x : Object} (hX : Function.update objects id (some object') i = some x) :
    ∃ before, objects i = some before ∧
      (x.connection.closed = false → before.connection.closed = false) := by
  rcases Update.some_cases hX with ⟨rfl, rfl⟩ | ⟨_, hOld⟩
  · exact ⟨object, hObject, hClosed⟩
  · exact ⟨x, hOld, fun hX => hX⟩

/-- An open connection is closed, and the server's callback runs if it is set. -/
theorem closes (h : Log objects number count trace) (hObject : objects id = some object)
    (hOpen : object.connection.closed = false) (hShut : object'.connection.closed = true)
    (callback : CloseCallback) (answers : Bool) :
    Log (Function.update objects id (some object')) number count
      (trace ++ (.connection (number id) (.closed callback) ::
        if answers then [.closeCallback (number id)] else [])) := by
  have hFresh := h.fresh hObject hOpen
  have hMem : ∀ {k callback'}, .connection k (.closed callback') ∈ trace ++
      (.connection (number id) (.closed callback) :: if answers then [.closeCallback (number id)]
        else []) → .connection k (.closed callback') ∈ trace ∨ k = number id := by
    intro k callback' hMem
    rcases List.mem_append.mp hMem with hOld | hNew
    · exact .inl hOld
    · cases answers <;> simp at hNew <;> exact .inr hNew.1
  refine ⟨?_, ?_, ?_, ?_, ?_, ?_, ?_⟩
  · intro i x hX
    rcases Update.some_cases hX with ⟨rfl, _⟩ | ⟨_, hOld⟩
    · exact h.numbered hObject
    · exact h.numbered hOld
  · intro i j a b hA hB hEq
    obtain ⟨_, hA', _⟩ := update_back hObject (fun _ => hOpen) hA
    obtain ⟨_, hB', _⟩ := update_back hObject (fun _ => hOpen) hB
    exact h.unique hA' hB' hEq
  · intro k callback' hClosed
    rcases hMem hClosed with hOld | rfl
    · exact h.past hOld
    · exact h.numbered hObject
  · intro i x hX hOpenX callback' hClosed
    rcases Update.some_cases hX with ⟨_, rfl⟩ | ⟨hNe, hOld⟩
    · exact absurd (hShut.symm.trans hOpenX) nofun
    · rcases hMem hClosed with hBefore | hSame
      · exact h.fresh hOld hOpenX callback' hBefore
      · exact hNe (h.unique hOld hObject hSame)
  · intro i x hX hOpenX
    rcases Update.some_cases hX with ⟨_, rfl⟩ | ⟨_, hOld⟩
    · exact absurd (hShut.symm.trans hOpenX) nofun
    · exact (h.announced hOld hOpenX).imp (List.mem_append_left _) (List.mem_append_left _)
  · intro k hAnswered
    rcases List.mem_append.mp hAnswered with hOld | hNew
    · obtain ⟨callback', hClosed⟩ := h.answered hOld
      exact ⟨callback', List.mem_append_left _ hClosed⟩
    · cases answers <;> simp at hNew
      exact ⟨callback, by simp [hNew]⟩
  · have hNever : .closeCallback (number id) ∉ trace := fun hIn => by
      obtain ⟨callback', hClosed⟩ := h.answered hIn
      exact hFresh callback' hClosed
    refine each_append.mpr ⟨h.protocol, ?_⟩
    cases answers <;> simp [Protocol, hFresh, hNever]

/-- An open connection has something to say. -/
theorem delivers (h : Log objects number count trace) (hObject : objects id = some object)
    (hOpen : object.connection.closed = false)
    (hStill : object'.connection.closed = object.connection.closed) (content : Bytes) :
    Log (Function.update objects id (some object')) number count
      (trace ++ [.connection (number id) (.message content)]) := by
  have hBefore := h.fresh hObject hOpen
  have hAnnounced := h.announced hObject hOpen
  refine h.keeps (by simp [closing]) (each_append.mpr ⟨h.protocol, ?_⟩)
    (update_back hObject fun hX => hStill.symm.trans hX)
  simp [Protocol, hBefore, hAnnounced]

theorem unused (h : Log objects number count trace) (callback : CloseCallback) :
    .connection count (.closed callback) ∉ trace :=
  fun hMem => Nat.lt_irrefl _ (h.past hMem)

/-- A number is given to an address that nobody has. -/
theorem renumber (h : Log objects number count trace) (hFree : objects id = none) :
    Log objects (Function.update number id count) (count + 1) trace := by
  have hSame : ∀ {i x}, objects i = some x → Function.update number id count i = number i := by
    rintro i x hX
    refine Function.update_of_ne ?_ ..
    rintro rfl
    rw [hFree] at hX
    cases hX
  refine ⟨?_, ?_, fun hMem => Nat.lt_succ_of_lt (h.past hMem), ?_, ?_, h.answered, h.protocol⟩
  · intro i x hX
    rw [hSame hX]
    exact Nat.lt_succ_of_lt (h.numbered hX)
  · intro i j a b hA hB hEq
    rw [hSame hA, hSame hB] at hEq
    exact h.unique hA hB hEq
  · intro i x hX
    rw [hSame hX]
    exact h.fresh hX
  · intro i x hX
    rw [hSame hX]
    exact h.announced hX

/-- A new connection with the events of its making. If it is open it was announced, or
there was no callback to announce it to. -/
theorem add (h : Log objects number count trace) (hFree : objects id = none)
    (hClosed : ∀ {k callback}, .connection k (.closed callback) ∈ events → k = count ∧
      object.connection.closed = true)
    (hOpen : object.connection.closed = false → .connected count ∈ events ∨
      .unannounced count ∈ events)
    (hAnswered : ∀ {k}, .closeCallback k ∈ events → ∃ callback, .connection k (.closed callback) ∈
      events) (hProtocol : Each (fun past => Protocol (trace ++ past)) events) :
    Log (Function.update objects id (some object)) (Function.update number id count) (count + 1)
      (trace ++ events) := by
  have hOld := h.renumber hFree
  have hOther : ∀ {i x}, objects i = some x → Function.update number id count i < count := by
    intro i x hX
    rw [Function.update_of_ne]
    · exact h.numbered hX
    · rintro rfl
      rw [hFree] at hX
      cases hX
  refine ⟨?_, ?_, ?_, ?_, ?_, ?_, each_append.mpr ⟨h.protocol, hProtocol⟩⟩
  · intro i x hX
    rcases Update.some_cases hX with ⟨rfl, _⟩ | ⟨_, hX⟩
    · rw [Function.update_self]
      exact Nat.lt_succ_self count
    · exact hOld.numbered hX
  · intro i j a b hA hB hEq
    rcases Update.some_cases hA with ⟨rfl, _⟩ | ⟨_, hOldA⟩ <;>
      rcases Update.some_cases hB with ⟨rfl, _⟩ | ⟨_, hOldB⟩
    · rfl
    · rw [Function.update_self] at hEq
      exact absurd hEq.symm (hOther hOldB).ne
    · rw [Function.update_self] at hEq
      exact absurd hEq (hOther hOldA).ne
    · exact hOld.unique hOldA hOldB hEq
  · intro k callback hMem
    rcases List.mem_append.mp hMem with hMem | hMem
    · exact hOld.past hMem
    · rw [(hClosed hMem).1]
      exact Nat.lt_succ_self count
  · intro i x hX hOpenX callback hMem
    rcases Update.some_cases hX with ⟨rfl, rfl⟩ | ⟨_, hX⟩
    · rw [Function.update_self] at hMem
      rcases List.mem_append.mp hMem with hMem | hMem
      · exact h.unused callback hMem
      · exact absurd ((hClosed hMem).2.symm.trans hOpenX) nofun
    · rcases List.mem_append.mp hMem with hMem | hMem
      · exact hOld.fresh hX hOpenX callback hMem
      · exact absurd ((hClosed hMem).1 ▸ hOther hX) (Nat.lt_irrefl _)
  · intro i x hX hOpenX
    rcases Update.some_cases hX with ⟨rfl, rfl⟩ | ⟨_, hX⟩
    · rw [Function.update_self]
      exact (hOpen hOpenX).imp (List.mem_append_right _) (List.mem_append_right _)
    · exact (hOld.announced hX hOpenX).imp (List.mem_append_left _) (List.mem_append_left _)
  · intro k hMem
    rcases List.mem_append.mp hMem with hMem | hMem
    · obtain ⟨callback, hShut⟩ := h.answered hMem
      exact ⟨callback, List.mem_append_left _ hShut⟩
    · obtain ⟨callback, hShut⟩ := hAnswered hMem
      exact ⟨callback, List.mem_append_right _ hShut⟩

end Log

/-- What is the same in all iterations of `handle_accept`. -/
theorem accept_parts (s : Reactor) (fd : Int) (id : Nat) (fault : Option AcceptFault)
    (batch : List (Int × Io.EpollEvents)) (channel : Option (Int × Nat × Io.EpollEvents))
    (frames : List Frame) :
    (s.accept fd id fault batch channel frames).1.server =
        ({ s.server with fresh := id }.handleAccept fd fault none).state ∧
      (s.accept fd id fault batch channel frames).1.listen = s.listen ∧
      (s.accept fd id fault batch channel frames).1.active = s.active ∧
      (s.accept fd id fault batch channel frames).1.number = Function.update s.number id s.count ∧
      (s.accept fd id fault batch channel frames).1.count = s.count + 1 := by
  simp only [accept, absorb]
  split
  · exact ⟨rfl, rfl, rfl, rfl, rfl⟩
  · split <;> exact ⟨rfl, rfl, rfl, rfl, rfl⟩

/-- How an iteration of `handle_accept` ends. -/
inductive Accepted (s : Reactor) (fd : Int) (id : Nat) (fault : Option AcceptFault)
    (r : Reactor × List ReactorEvent) : Prop where
  | refused (e : Thrown) (hFault : fault ≠ some .makeShared)
      (hObjects : r.1.server.objects = s.server.objects)
      (hDescriptors : r.1.server.descriptors = Function.update
        (Function.update s.server.descriptors fd true) fd false)
      (hEvents : r.2 = [.opened fd, .released fd, .threw e]) :
      Accepted s fd id fault r
  | unmade (e : Thrown) (hFault : fault = some .makeShared)
      (hObjects : r.1.server.objects = s.server.objects)
      (hDescriptors : r.1.server.descriptors = Function.update s.server.descriptors fd true)
      (hEvents : r.2 = [.opened fd, .threw e, .makeSharedFailed fd]) :
      Accepted s fd id fault r
  | abandoned (e : Thrown) (object : Object) (hFault : fault ≠ some .makeShared)
      (hObjects : r.1.server.objects = Function.update s.server.objects id (some object))
      (hDescriptors : r.1.server.descriptors = Function.update s.server.descriptors fd true)
      (hFd : object.connection.fd = fd) (hPc : object.pc = .idle)
      (hShut : object.connection.closed = true)
      (hEvents : r.2 = .opened fd :: .connection s.count (.closed .server) ::
        ((if s.server.closeCallback then [.closeCallback s.count] else []) ++ [.threw e])) :
      Accepted s fd id fault r
  | established (object : Object) (hFault : fault ≠ some .makeShared)
      (hObjects : r.1.server.objects = Function.update s.server.objects id (some object))
      (hDescriptors : r.1.server.descriptors = Function.update s.server.descriptors fd true)
      (hFd : object.connection.fd = fd) (hPc : object.pc = .idle)
      (hOpen : object.connection.closed = false)
      (hEvents : r.2 = [.opened fd,
        if s.server.connectionCallback then .connected s.count else .unannounced s.count]) :
      Accepted s fd id fault r

/-- `accept` of the reactor is `handle_accept` of the server, inside the dispatch. -/
theorem accepted_accept (s : Reactor) {fd : Int} (hNonneg : 0 ≤ fd) (id : Nat)
    (fault : Option AcceptFault) (batch : List (Int × Io.EpollEvents))
    (channel : Option (Int × Nat × Io.EpollEvents)) (frames : List Frame) :
    Accepted s fd id fault (s.accept fd id fault batch channel frames) := by
  have hAccepts : TcpServer.Accepts { s.server with fresh := id } fd fault
      ({ s.server with fresh := id }.handleAccept fd fault none) := TcpServer.accepts_handleAccept
      hNonneg fault
  simp only [accept]
  generalize { s.server with fresh := id }.handleAccept fd fault none = o at hAccepts ⊢
  cases hAccepts with
  | refused e hFault hError hObjects _ hDescriptors hEvents =>
    simp only [hError, Option.isSome_some, if_true, absorb, TcpServer.report, hEvents,
      if_neg hFault]
    exact .refused e hFault hObjects hDescriptors rfl
  | unmade e hFault hError hObjects _ hDescriptors hEvents =>
    simp only [hError, Option.isSome_some, if_true, absorb, TcpServer.report, hEvents,
      if_pos hFault]
    exact .unmade e hFault hObjects hDescriptors rfl
  | abandoned e object hFault hError hMade hShut _ _ hEvents =>
    simp only [hError, Option.isSome_some, if_true, absorb, TcpServer.report, hEvents,
      if_neg hFault]
    refine .abandoned e object hFault hMade.objects hMade.descriptors hMade.holds hMade.pc hShut ?_
    cases hSet : s.server.closeCallback <;> simp [translate, hSet]
  | established object hFault hError hMade hOpen _ _ hEvents =>
    simp only [hError, Option.isSome_none, Bool.false_eq_true, if_false, absorb, TcpServer.report,
      hEvents]
    cases hSet : s.server.connectionCallback with
    | true | false =>
      refine .established object hFault hMade.objects hMade.descriptors hMade.holds hMade.pc hOpen
        ?_
      simp [translate, hSet]

/-- A connection in one of its loops is the active one. -/
structure Inv (s : Reactor) (trace : List ReactorEvent) : Prop where
  wired : Wired s.server s.listen
  busy : ∀ {id object}, s.server.objects id = some object → object.pc ≠ .idle → s.active = some id
  log : Log s.server.objects s.number s.count trace

namespace Inv

variable {s s' : Reactor} {trace events : List ReactorEvent} {id : Nat} {object : Object}
  {a : ConnAction}

theorem idle (h : Inv s trace) (hActive : s.active = none)
    (hObject : s.server.objects id = some object) : object.pc = .idle := by
  by_contra hBusy
  rw [h.busy hObject hBusy] at hActive
  cases hActive

/-- What neither changes the connections nor the entries of the event loop. -/
theorem still (h : Inv s trace) (hStill : Still s s') (hPlain : ∀ e ∈ events, plain e = true) :
    Inv s' (trace ++ events) where
  wired := by
    rw [hStill.listen]
    exact h.wired.frame hStill.objects hStill.channels
      (fun {fd} hTrue => (congrFun hStill.descriptors fd).trans hTrue)
  busy := by
    rw [hStill.objects, hStill.active]
    exact h.busy
  log := by
    rw [hStill.objects, hStill.number, hStill.count]
    exact h.log.plain hPlain fun hX => ⟨_, hX, fun hOpen => hOpen⟩

/-- The events of a call on a connection, with its number. -/
theorem translate_act (s : Reactor) (hObject : s.server.objects id = some object)
    (f : Conn → ConnOutcome) :
    (TcpServer.report (s.server.act id f none)).2.flatMap s.translate =
      (f ⟨object.connection, s.server.loop, object.pc⟩).events.flatMap
        (fun e => s.translate (.connection id e)) ++
        ((f ⟨object.connection, s.server.loop, object.pc⟩).error.map ReactorEvent.threw).toList
          := by
  simp only [TcpServer.report, TcpServer.act, hObject, TcpServer.absorb_none, List.flatMap_append,
    List.flatMap_map]
  congr 1
  · split <;> simp [translate]
  · cases (f ⟨object.connection, s.server.loop, object.pc⟩).error <;> simp [translate]

theorem plain_of_quiet (s : Reactor) (id : Nat) {events : List ConnEvent}
    (hQuiet : ∀ e ∈ events, e.isCallback = false) :
    ∀ e ∈ events.flatMap (fun e => s.translate (.connection id e)), plain e = true := by
  intro e hMem
  obtain ⟨e', hMem', hIn⟩ := List.mem_flatMap.mp hMem
  have hNot := hQuiet e' hMem'
  have hOther : ¬ (e' = .closed .server ∧ s.server.closeCallback = true) := by
    rintro ⟨rfl, _⟩
    cases hNot
  rw [translate, if_neg hOther, List.mem_singleton] at hIn
  subst hIn
  simp only [plain, hNot, Bool.not_false]

theorem plain_threw (error : Option Thrown) :
    ∀ e ∈ (error.map ReactorEvent.threw).toList, plain e = true := by
  cases error <;> simp [plain]

/-- A call on a connection. -/
theorem call (h : Inv s trace) (hObject : s.server.objects id = some object)
    (hEnabled : (Conn.mk object.connection s.server.loop object.pc).Enabled a)
    (hHere : ∀ loop, a ≠ .elsewhere loop) :
    Log (s.server.act id (·.perform a) none).state.objects s.number s.count
      (trace ++ (TcpServer.report (s.server.act id (·.perform a) none)).2.flatMap s.translate) := by
  have hFate := Conn.fate_perform hEnabled
  have hSpeaks := (Conn.behaves_perform hEnabled hHere).speaks
  have hLive := (h.wired.placed hObject).live
  obtain ⟨-, hObjects, -⟩ := TcpServer.act_parts hObject (·.perform a)
  rw [hObjects, translate_act s hObject, ← List.append_assoc]
  generalize (Conn.mk object.connection s.server.loop object.pc).perform a = o at *
  refine Log.plain ?_ (plain_threw o.error) fun hX => ⟨_, hX, fun hOpen => hOpen⟩
  have hEnds := hFate.ends
  have hReopened := fun hOpen => hFate.open_of_open hOpen
  generalize o.events = events at hSpeaks hEnds
  cases hSpeaks with
  | quiet hQuiet =>
      exact h.log.plain (plain_of_quiet s id hQuiet) (Log.update_back hObject hReopened)
  | @closes front hOpen hQuiet =>
    have hShut : o.state.connection.closed = true := by
      rcases hEnds with ⟨_, hNever⟩ | ⟨_, hShut, _⟩
      · exact absurd (List.mem_append_right front (List.mem_singleton_self _)) (hNever _)
      · exact hShut
    have hFront := h.log.plain (plain_of_quiet s id hQuiet) fun hX => ⟨_, hX, fun hOpen => hOpen⟩
    rw [List.flatMap_append, List.flatMap_singleton, ← List.append_assoc]
    have hCloses := hFront.closes hObject hOpen
      (show (Object.mk o.state.connection o.state.pc).connection.closed = true from hShut)
      object.connection.closeCallback
      (decide (ConnEvent.closed object.connection.closeCallback = .closed .server ∧
        s.server.closeCallback = true))
    simpa only [translate, decide_eq_true_eq] using hCloses
  | @delivers content hPc =>
    have hOpen : object.connection.closed = false := hLive.pc (by rw [hPc]; nofun)
    have hStill : o.state.connection.closed = object.connection.closed := by
      rcases hEnds with ⟨hSame, _⟩ | ⟨_, _, hOnce⟩
      · exact hSame
      · exact absurd ((hOnce _).mpr rfl) (by simp)
    exact h.log.delivers hObject hOpen hStill content

/-- Only the connection called may be in its loop afterwards. -/
theorem busy_act (h : Inv s trace) (hObject : s.server.objects id = some object)
    (hActive : s.active = none ∨ s.active = some id) (f : Conn → ConnOutcome) {active : Option Nat}
    (hPc : (f ⟨object.connection, s.server.loop, object.pc⟩).state.pc ≠ .idle → active = some id)
    {i : Nat} {x : Object} (hX : (s.server.act id f none).state.objects i = some x)
    (hBusy : x.pc ≠ .idle) : active = some i := by
  rw [(TcpServer.act_parts hObject f).2.1] at hX
  rcases Update.some_cases hX with ⟨rfl, rfl⟩ | ⟨hNe, hOld⟩
  · exact hPc hBusy
  · have hOther := h.busy hOld hBusy
    rcases hActive with hNone | hSome
    · rw [hNone] at hOther
      cases hOther
    · rw [hSome] at hOther
      exact absurd (Option.some.inj hOther).symm hNe

/-- A call of `on_read` or `on_write`. The channel is there, and it is registered. -/
theorem enter (h : Inv s trace) (hActive : s.active = none)
    (hObject : s.server.objects id = some object)
    (hRegistered : (Conn.mk object.connection s.server.loop object.pc).Registered)
    (direction : Io.Event) : Inv (s.enter id direction).1 (trace ++ (s.enter id direction).2) := by
  have hEnabled : (Conn.mk object.connection s.server.loop object.pc).Enabled
      (handler direction) := by
    cases direction <;> exact ⟨h.idle hActive hObject, hRegistered⟩
  have hHere : ∀ loop, handler direction ≠ .elsewhere loop := by cases direction <;> nofun
  simp only [Reactor.enter, hObject]
  refine ⟨h.wired.call hObject hEnabled hHere, h.busy_act hObject (.inl hActive) _ fun _ => rfl, ?_⟩
  dsimp only
  rw [(TcpServer.act_parts hObject _).2.1]
  exact h.log.plain (by simp [plain, hRegistered])
    (Log.update_back hObject fun hOpen => (Conn.fate_perform hEnabled).open_of_open hOpen)

theorem turn (h : Inv s trace) (hActive : s.active = some id)
    (hObject : s.server.objects id = some object)
    (hEnabled : (Conn.mk object.connection s.server.loop object.pc).Enabled a)
    (hHere : ∀ loop, a ≠ .elsewhere loop) : Inv (s.turn id a).1 (trace ++ (s.turn id a).2) := by
  refine ⟨h.wired.call hObject hEnabled hHere, h.busy_act hObject (.inr hActive) (·.perform a)
    fun hPc => ?_, h.call hObject hEnabled hHere⟩
  have hObjects := (TcpServer.act_parts hObject (·.perform a)).2.1
  simp only [Reactor.turn, hObjects, Function.update_self, Option.any_some, decide_eq_true_eq]
  exact if_pos hPc

/-- User code finds a connection idle and leaves it so. -/
theorem idle_of_call {c : Conn} (hLive : c.Live) (hCall : a.isCall = true)
    (hEnabled : c.Enabled a) : (c.perform a).state.pc = .idle := by
  cases a with
  | start fails => exact (Conn.calls_start hLive.life fails).pc.elim (·.trans hEnabled) id
  | send data answer short fails =>
    have hPc : c.pc = .idle := by
      cases answer with
      | count => exact hEnabled.1
      | failed => exact hEnabled
    exact (Conn.calls_send hPc data answer short fails).pc.elim (·.trans hPc) id
  | close => exact c.pc_close.trans hEnabled
  | setMessageCallback | setCloseCallback | useBuffer => exact hEnabled
  | _ => cases hCall

theorem connection (h : Inv s trace) (hActive : s.active = none)
    (hObject : s.server.objects id = some object) (hCall : a.isCall = true)
    (hEnabled : (Conn.mk object.connection s.server.loop object.pc).Enabled a) :
    Inv (s.absorb (s.server.act id (·.perform a) none)).1
      (trace ++ (s.absorb (s.server.act id (·.perform a) none)).2) := by
  have hHere : ∀ loop, a ≠ .elsewhere loop := by
    rintro loop rfl
    cases hCall
  refine ⟨h.wired.call hObject hEnabled hHere, h.busy_act hObject (.inl hActive) (·.perform a)
    fun hPc => ?_, h.call hObject hEnabled hHere⟩
  exact absurd (idle_of_call (h.wired.placed hObject).live hCall hEnabled) hPc

theorem drop (h : Inv s trace) (hObject : s.server.objects id = some object) :
    Inv { s with server := s.server.destroy id object }
      (trace ++ [.released object.connection.fd, .destroyed (s.number id)]) := by
  have hBack : ∀ {i x}, (s.server.destroy id object).objects i = some x →
      s.server.objects i = some x := by
    intro i x hX
    rw [TcpServer.objects_destroy] at hX
    obtain ⟨-, hX⟩ := Update.of_none hX
    exact hX
  exact ⟨h.wired.destroy hObject, fun hX hBusy => h.busy (hBack hX) hBusy,
    h.log.plain (by simp [plain]) fun hX => ⟨_, hBack hX, fun hOpen => hOpen⟩⟩

/-- A connection is accepted, or refused with its descriptor closed. -/
theorem accept (h : Inv s trace) {fd : Int} {fault : Option AcceptFault} (hNonneg : 0 ≤ fd)
    (hClosed : s.server.descriptors fd = false) (hFree : s.server.objects id = none)
    (hNe : id ≠ s.listen.address) (batch : List (Int × Io.EpollEvents))
    (channel : Option (Int × Nat × Io.EpollEvents)) (frames : List Frame) :
    Inv (s.accept fd id fault batch channel frames).1
      (trace ++ (s.accept fd id fault batch channel frames).2) := by
  obtain ⟨hServer, hListen, hActive, hNumber, hCount⟩ := s.accept_parts fd id fault batch channel
    frames
  have hAccepted := s.accepted_accept hNonneg id fault batch channel frames
  generalize s.accept fd id fault batch channel frames = r at *
  have hWired : Wired r.1.server r.1.listen := by
    rw [hServer, hListen]
    have hSame : Wired { s.server with fresh := id } s.listen := h.wired.frame rfl rfl
        (fun hTrue => hTrue)
    exact hSame.accepts hFree hNe hNonneg hClosed (TcpServer.accepts_handleAccept hNonneg fault)
  -- the new connection is idle
  have hBusy : ∀ {object : Object}, object.pc = .idle → ∀ {i x},
      Function.update s.server.objects id (some object) i = some x → x.pc ≠ .idle →
      s.active = some i := by
    intro object hPc i x hX hBusy
    rcases Update.some_cases hX with ⟨_, rfl⟩ | ⟨_, hOld⟩
    · exact absurd hPc hBusy
    · exact h.busy hOld hBusy
  refine ⟨hWired, ?_, ?_⟩
  · rw [hActive]
    cases hAccepted with
    | refused _ _ hObjects | unmade _ _ hObjects => rw [hObjects]; exact h.busy
    | abandoned _ object _ hObjects _ _ hPc | established object _ hObjects _ _ hPc =>
      rw [hObjects]; exact hBusy hPc
  · rw [hNumber, hCount]
    have hNever := h.log.unused
    cases hAccepted with
    | refused e _ hObjects _ hEvents | unmade e _ hObjects _ hEvents =>
      rw [hObjects, hEvents]
      exact (h.log.renumber hFree).plain (by simp [plain]) fun hX => ⟨_, hX, fun hOpen => hOpen⟩
    | abandoned e object _ hObjects _ _ _ hShut hEvents =>
      have hUnanswered : .closeCallback s.count ∉ trace := fun hIn => by
        obtain ⟨callback, hMem⟩ := h.log.answered hIn
        exact hNever callback hMem
      rw [hObjects, hEvents]
      refine h.log.add hFree ?_ (fun hOpen => absurd (hShut.symm.trans hOpen) nofun) ?_ ?_
      · cases s.server.closeCallback <;> simp [hShut]
      · cases s.server.closeCallback <;> simp
      · cases s.server.closeCallback <;> simp [Protocol, hNever, hUnanswered]
    | established object _ hObjects _ _ _ hOpen hEvents =>
      rw [hObjects, hEvents]
      refine h.log.add hFree ?_ (fun _ => ?_) ?_ ?_ <;> cases s.server.connectionCallback
        <;> simp [Protocol]

/-- Whatever happens next, the callbacks seen so far obey the protocol. -/
theorem step (h : Inv s trace) (hStep : Step s s' events) : Inv s' (trace ++ events) := by
  cases hStep with
  | rests hStill hEvents =>
    refine h.still hStill fun e hMem => ?_
    obtain ⟨x, rfl⟩ := hEvents e hMem
    rfl
  | listens hStill hFound => exact h.still hStill (by simp [plain, (h.wired.found hFound).1 rfl])
  | enters frames direction hActive hFound hNe =>
    obtain ⟨object, hObject, hRegistered⟩ := (h.wired.found hFound).2 hNe
    have hFramed : Inv { s with frames } trace := ⟨h.wired, h.busy, h.log⟩
    exact hFramed.enter hActive hObject hRegistered direction
  | turns hActive hObject hTurn hEnabled =>
    refine h.turn hActive hObject hEnabled ?_
    rintro loop rfl
    cases hTurn
  | calls hActive hObject hCall hEnabled => exact h.connection hActive hObject hCall hEnabled
  | abandons hStill hActive hObject =>
    have hBefore : Inv _ (trace ++ []) := h.still hStill (by simp)
    rw [List.append_nil] at hBefore
    have hIdle := hStill.active.trans hActive
    exact hBefore.connection (a := .close) hIdle hObject rfl (hBefore.idle hIdle hObject)
  | accepts fault batch channel frames hNonneg hClosed hFree hNe =>
    exact h.accept hNonneg hClosed hFree hNe batch channel frames
  | drops hObject => exact h.drop hObject
  | starts hAdd =>
    refine ⟨h.wired.listen_add hAdd, h.busy, ?_⟩
    rw [List.append_nil]
    exact h.log

theorem of_reaches {descriptors : Int → Bool} {listen : Io.Channel}
    (h : (reactorMachine descriptors listen).Reaches s trace) : Inv s trace := by
  refine h.invariant (P := Inv) ?_ fun _ hInv hNext => hInv.step (step_of_next hNext)
  exact ⟨.create descriptors listen, nofun, ⟨nofun, nofun, nofun, nofun, nofun, nofun, each_nil⟩⟩

end Inv

/-- In every run of the reactor, whatever the user's callbacks do: a connection is closed
at most once, with the server's close callback, it delivers messages only while it is open
and after the connection callback, and the event loop calls only channels that are
registered and looks at none that is gone. -/
theorem callbacks_of_reaches {descriptors : Int → Bool} {listen : Io.Channel} {s : Reactor}
    {trace : List ReactorEvent} (h : (reactorMachine descriptors listen).Reaches s trace) :
    Each Protocol trace :=
  (Inv.of_reaches h).log.protocol

/-- The message callback of the first connection closes the second one, whose event is in
the same batch, and lets it go. Before that event has its turn a third connection is
accepted, with the descriptor and the address of the second: it is the one that is called. -/
theorem callbacks_of_reaches_reused :
    ∃ s trace, (reactorMachine (fun _ => false) ⟨0, 3, ⟨true, false⟩⟩).Reaches s trace ∧
      (∀ e ∈ [.connection 0 (.message [7]), .connection 1 (.closed .server), .closeCallback 1,
        .destroyed 1, .connected 2, .called 2 .read true, .connection 2 (.message [8])],
        e ∈ trace) ∧ Each Protocol trace := by
  have hRun : ((reactorMachine (fun _ => false) ⟨0, 3, ⟨true, false⟩⟩).run
      (.create (fun _ => false) ⟨0, 3, ⟨true, false⟩⟩)
      [.start false, .setMessageCallback true, .setConnectionCallback true, .setCloseCallback true,
        .kernel 3 ⟨true, false, false, false, false⟩ true, .poll 10 [3], .dispatchRead,
        .accept 5 1 none,
        .callbackReturned, .accept 6 2 none, .callbackReturned, .acceptFailed EAGAIN,
        .dispatchWrite, .leave,
        .kernel 5 ⟨true, false, false, false, false⟩ true,
        .kernel 6 ⟨true, false, false, false, false⟩ true,
        .poll 10 [5, 6], .dispatchRead, .turn (.recv (.data [7]) false),
        .turn (.recv (.failed EAGAIN) false),
        .connection 2 .close, .drop 2, .kernel 3 ⟨true, false, false, false, false⟩ true,
        .poll 10 [3], .dispatchRead,
        .accept 6 2 none, .callbackReturned, .acceptFailed EAGAIN, .dispatchWrite, .leave,
        .dispatchWrite,
        .dispatchRead, .turn (.recv (.data [8]) false), .turn (.recv (.failed EAGAIN) false)]).map
        (fun r => [.connection 0 (.message [7]), .connection 1 (.closed .server), .closeCallback 1,
          .destroyed 1, .connected 2, .called 2 .read true, .connection 2 (.message [8])].all
          fun e => decide (e ∈ r.2)) =
      some true := by decide +kernel
  obtain ⟨⟨s, trace⟩, hRun, hAll⟩ := Option.map_eq_some_iff.mp hRun
  have hReaches := Machine.Reaches.start.run hRun
  refine ⟨s, _, hReaches, fun e he => ?_, callbacks_of_reaches hReaches⟩
  exact of_decide_eq_true (List.all_eq_true.mp hAll e he)

end Reactor

end Tinycoro.Net
