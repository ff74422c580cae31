import Tinycoro.Net.TcpServer

/-! One iteration of `handle_accept` with a descriptor. It ends in one of four ways: the
descriptor was closed again, nobody has it, a closed connection has it, or an open one
that is registered with the event loop. -/
namespace Tinycoro.Net

open Effect

namespace TcpServer

/-- A connection as the constructor makes it, with the callbacks of the server. -/
def made (fd : Int) (id : Nat) (messageCallback : Bool) : TcpConnection where
  fd := fd
  started := false
  closed := false
  channel := ⟨id, fd, ⟨true, false⟩⟩
  readBuffer := .create Buffer.kInitialSize Buffer.kInitialSize_le
  writeBuffer := .create Buffer.kInitialSize Buffer.kInitialSize_le
  messageCallback := messageCallback
  closeCallback := .server

/-- Inside the `try` block, before `start`: beside the new connection nothing has changed
that the event loop or the other connections could see. -/
structure Making (before w : TcpServer) (fd : Int) (id : Nat) : Prop where
  objects : ∃ messageCallback,
    w.objects = Function.update before.objects id (some ⟨made fd id messageCallback, .idle⟩)
  loop : w.loop = before.loop
  descriptors : w.descriptors = before.descriptors
  connectionCallback : w.connectionCallback = before.connectionCallback

/-- The block has failed, and the connection was closed. -/
structure Abandons (before : TcpServer) (fd : Int) (id : Nat) (o : ServerOutcome) : Prop where
  error : o.error ≠ none
  events : o.events = [.connection id (.closed .server)]
  channels : o.state.loop.channels = before.loop.channels
  descriptors : o.state.descriptors = before.descriptors
  objects : ∃ messageCallback, o.state.objects =
    Function.update before.objects id (some ⟨{ made fd id messageCallback with closed := true },
    .idle⟩)

/-- The block has come to the connection callback, which is running if there is one. -/
structure Establishes (before : TcpServer) (fd : Int) (id : Nat) (o : ServerOutcome) : Prop where
  error : o.error = none
  events : o.events = if before.connectionCallback then [.connected id] else []
  channels : o.state.loop.channels = Function.update before.loop.channels fd (some id)
  descriptors : o.state.descriptors = before.descriptors
  objects : ∃ messageCallback, o.state.objects =
    Function.update before.objects id (some ⟨{ made fd id messageCallback with started := true },
    .idle⟩)

/-- The new connection after the iteration. -/
structure Made (w : TcpServer) (fd : Int) (o : ServerOutcome) (object : Object) : Prop where
  objects : o.state.objects = Function.update w.objects w.fresh (some object)
  descriptors : o.state.descriptors = Function.update w.descriptors fd true
  channelFd : object.connection.channel.fd = fd
  holds : object.connection.fd = fd
  address : object.connection.channel.address = w.fresh
  pc : object.pc = .idle

/-- What an iteration does. -/
inductive Accepts (w : TcpServer) (fd : Int) (fault : Option AcceptFault) (o : ServerOutcome) :
  Prop where
  | refused (e : Thrown) (hFault : fault ≠ some .makeShared) (hError : o.error = some e)
      (hObjects : o.state.objects = w.objects) (hChannels : o.state.loop.channels = w.loop.channels)
      (hDescriptors : o.state.descriptors = Function.update (Function.update w.descriptors fd true)
        fd false) (hEvents : o.events = [.opened fd, .released fd]) :
      Accepts w fd fault o
  | unmade (e : Thrown) (hFault : fault = some .makeShared) (hError : o.error = some e)
      (hObjects : o.state.objects = w.objects) (hChannels : o.state.loop.channels = w.loop.channels)
      (hDescriptors : o.state.descriptors = Function.update w.descriptors fd true)
      (hEvents : o.events = [.opened fd]) : Accepts w fd fault o
  | abandoned (e : Thrown) (object : Object) (hFault : fault ≠ some .makeShared)
      (hError : o.error = some e) (hMade : Made w fd o object)
      (hClosed : object.connection.closed = true) (hStarted : object.connection.started = false)
      (hChannels : o.state.loop.channels = w.loop.channels)
      (hEvents : o.events = [.opened fd, .connection w.fresh (.closed .server)]) :
      Accepts w fd fault o
  | established (object : Object) (hFault : fault ≠ some .makeShared) (hError : o.error = none)
      (hMade : Made w fd o object) (hOpen : object.connection.closed = false)
      (hStarted : object.connection.started = true)
      (hChannels : o.state.loop.channels = Function.update w.loop.channels fd (some w.fresh))
      (hEvents : o.events = .opened fd ::
        if w.connectionCallback then [.connected w.fresh] else []) :
      Accepts w fd fault o

section Making

variable {before w : TcpServer} {fd : Int} {id : Nat}

/-- A call on a connection that neither closes it nor replaces its close callback. -/
theorem act_of_quiet {f : Conn → ConnOutcome} {object : Object}
    (hObject : w.objects id = some object)
    (hEvents : (f ⟨object.connection, w.loop, object.pc⟩).events = [])
    (hCallback : (f ⟨object.connection, w.loop, object.pc⟩).state.connection.closeCallback =
      object.connection.closeCallback) :
    w.act id f none = ⟨w.put id (f ⟨object.connection, w.loop, object.pc⟩).state, [],
      (f ⟨object.connection, w.loop, object.pc⟩).error⟩ := by
  simp [act, hObject, absorb_none, hEvents, hCallback]

theorem Making.giveCallback (h : Making before w fd id) (fault : Option AcceptFault) :
    Making before (w.giveCallback id fault).state fd id ∧ (w.giveCallback id fault).events =
    [] := by
  unfold TcpServer.giveCallback
  split
  · split
    · exact ⟨h, rfl⟩
    · obtain ⟨messageCallback, hObjects⟩ := h.objects
      have hObject : w.objects id = some ⟨made fd id messageCallback, .idle⟩ := by
        rw [hObjects, Function.update_self]
      rw [act_of_quiet hObject rfl rfl]
      refine ⟨⟨⟨true, ?_⟩, h.loop, h.descriptors, h.connectionCallback⟩, rfl⟩
      simp only [put, hObjects, Function.update_idem]
      rfl
  · exact ⟨h, rfl⟩

theorem Making.insert (h : Making before w fd id) (fault : Option AcceptFault) :
    Making before (w.insert fd id fault).state fd id ∧ (w.insert fd id fault).events = [] := by
  unfold TcpServer.insert TcpServer.emplace
  split
  · exact ⟨h, rfl⟩
  · dsimp only [Outcome.ok_state, Outcome.ok_events]
    split
    · exact ⟨h, rfl⟩
    · exact ⟨⟨h.objects, h.loop, h.descriptors, h.connectionCallback⟩, rfl⟩

/-- The end of the `try` block: the connection is there as before, or started. -/
theorem Making.start (h : Making before w fd id) (fails : Bool) :
    (Making before (w.act id (·.start fails) none).state fd id ∧
        (w.act id (·.start fails) none).events = [] ∧
          (w.act id (·.start fails) none).error ≠ none) ∨
      ((w.act id (·.start fails) none).events = [] ∧ (w.act id (·.start fails) none).error = none ∧
        (w.act id (·.start fails) none).state.connectionCallback = before.connectionCallback ∧
        (w.act id (·.start fails) none).state.descriptors = before.descriptors ∧
        (w.act id (·.start fails) none).state.loop.channels =
          Function.update before.loop.channels fd (some id) ∧
        ∃ messageCallback, (w.act id (·.start fails) none).state.objects = Function.update
          before.objects id
            (some ⟨{ made fd id messageCallback with started := true }, .idle⟩)) := by
  obtain ⟨messageCallback, hObjects⟩ := h.objects
  have hObject : w.objects id = some ⟨made fd id messageCallback, .idle⟩ := by
    rw [hObjects, Function.update_self]
  cases hAdd : w.loop.addChannel fails ⟨id, fd, ⟨true, false⟩⟩ with
  | error e =>
    have hStart : Conn.start ⟨made fd id messageCallback, w.loop, .idle⟩ fails =
        .fail (.loop e) ⟨made fd id messageCallback, w.loop, .idle⟩ [] := by
      simp [Conn.start, made, hAdd]
    left
    rw [act_of_quiet hObject (by simp only [hStart, Outcome.fail_events])
      (by simp only [hStart, Outcome.fail_state])]
    simp only [hStart, Outcome.fail_state, Outcome.fail_error]
    refine ⟨⟨⟨messageCallback, ?_⟩, h.loop, h.descriptors, h.connectionCallback⟩, trivial, by simp⟩
    simp only [put, hObjects, Function.update_idem]
  | ok loop =>
    have hStart : Conn.start ⟨made fd id messageCallback, w.loop, .idle⟩ fails =
        .ok ⟨{ made fd id messageCallback with started := true }, loop, .idle⟩ [] := by
      simp [Conn.start, made, hAdd]
    obtain ⟨-, -, -, rfl⟩ := Io.EventLoop.addChannel_ok hAdd
    right
    rw [act_of_quiet hObject (by simp only [hStart, Outcome.ok_events])
      (by simp only [hStart, Outcome.ok_state])]
    simp only [hStart, Outcome.ok_state, Outcome.ok_error]
    refine ⟨trivial, trivial, h.connectionCallback, h.descriptors, ?_, messageCallback, ?_⟩
    · simp only [put, h.loop]
    · simp only [put, hObjects, Function.update_idem]

/-- The handler closes the new connection, which leaves the map. -/
theorem Making.close (h : Making before w fd id) (e : Thrown) :
    Abandons before fd id ⟨(w.act id Conn.close none).state, (w.act id Conn.close none).events,
    some e⟩ := by
  obtain ⟨messageCallback, hObjects⟩ := h.objects
  have hObject : w.objects id = some ⟨made fd id messageCallback, .idle⟩ := by
    rw [hObjects, Function.update_self]
  have hClose : Conn.close ⟨made fd id messageCallback, w.loop, .idle⟩ =
      .ok ⟨{ made fd id messageCallback with closed := true }, w.loop, .idle⟩ [.closed .server] :=
      rfl
  have hAct : w.act id Conn.close none =
      ⟨(w.put id ⟨{ made fd id messageCallback with closed := true }, w.loop, .idle⟩).erase fd,
        [.connection id (.closed .server)], none⟩ := by
    simp only [act, hObject, hClose]
    simp [absorb_none, made]
  rw [hAct]
  refine ⟨by simp, rfl, ?_, h.descriptors, messageCallback, ?_⟩
  · simp only [erase, put, h.loop]
  · simp only [erase, put, hObjects, Function.update_idem]

end Making

/-- The `try` block with its handler. -/
theorem Making.setUp {before w : TcpServer} {fd : Int} {id : Nat} (h : Making before w fd id)
    (fault : Option AcceptFault) :
    Abandons before fd id (abandon (w.setUp fd id fault) id none) ∨
      Establishes before fd id (abandon (w.setUp fd id fault) id none) := by
  have hFirst : Making before ((w.giveCallback id fault).andThen (·.insert fd id fault)).state fd id
      ∧ ((w.giveCallback id fault).andThen (·.insert fd id fault)).events = [] := by
    refine @Outcome.andThen_keeps _ _ _ (fun w' events => Making before w' fd id ∧ events = []) _ _
      [] (h.giveCallback fault) ?_
    rintro _ ⟨hMaking, rfl⟩
    exact hMaking.insert fault
  unfold TcpServer.setUp
  generalize (w.giveCallback id fault).andThen (·.insert fd id fault) = first at hFirst ⊢
  obtain ⟨middle, events, error⟩ := first
  obtain ⟨hMiddle, rfl⟩ := hFirst
  cases error with
  | some => exact .inl (hMiddle.close _)
  | none =>
    rcases hMiddle.start (fault = some .start) with ⟨hMaking, hEvents, hError⟩ |
      ⟨hEvents, hError, hCallback, hDescriptors, hChannels, messageCallback, hObjects⟩
    · obtain ⟨e, hSome⟩ := Option.ne_none_iff_exists'.mp hError
      left
      simp only [Outcome.andThen, abandon, hSome, hEvents, List.append_nil, Outcome.fail]
      exact hMaking.close _
    · right
      simp only [Outcome.andThen, hError, hEvents, announce, hCallback]
      cases hSet : before.connectionCallback with
      | true | false =>
        exact ⟨rfl, by rw [hSet]; rfl, hChannels, hDescriptors, messageCallback, hObjects⟩

/-- What `handle_accept` does to the server, for each fault it can meet. -/
theorem accepts_handleAccept {w : TcpServer} {fd : Int} (hNonneg : 0 ≤ fd)
    (fault : Option AcceptFault) : Accepts w fd fault (w.handleAccept fd fault none) := by
  have hCreate : TcpConnection.create fd w.fresh = .ok { made fd w.fresh false with closeCallback :=
    .unset } :=
    if_neg (Int.not_lt.mpr hNonneg)
  unfold handleAccept
  rw [Outcome.ok_andThen]
  dsimp only
  split
  · exact .refused _ nofun rfl rfl rfl rfl rfl
  · exact .unmade _ rfl rfl rfl rfl rfl rfl
  · rename_i hNotBlocking hNotMade
    have hFault : fault ≠ some .makeShared := fun hEq => hNotMade hEq
    simp only [hCreate]
    have hMaking : Making { w with descriptors := Function.update w.descriptors fd true }
        { w with
          descriptors := Function.update w.descriptors fd true
          fresh := w.fresh + 1
          objects := Function.update w.objects w.fresh (some ⟨made fd w.fresh false, .idle⟩) } fd
          w.fresh :=
      ⟨⟨false, rfl⟩, rfl, rfl, rfl⟩
    rcases hMaking.setUp fault with hAbandons | hEstablishes
    · obtain ⟨messageCallback, hObjects⟩ := hAbandons.objects
      obtain ⟨e, hError⟩ := Option.ne_none_iff_exists'.mp hAbandons.error
      refine .abandoned e ⟨{ made fd w.fresh messageCallback with closed := true }, .idle⟩ hFault
        hError ⟨hObjects, hAbandons.descriptors, rfl, rfl, rfl, rfl⟩ rfl rfl hAbandons.channels ?_
      exact congrArg ([ServerEvent.opened fd] ++ ·) hAbandons.events
    · obtain ⟨messageCallback, hObjects⟩ := hEstablishes.objects
      refine .established ⟨{ made fd w.fresh messageCallback with started := true }, .idle⟩ hFault
        hEstablishes.error ⟨hObjects, hEstablishes.descriptors, rfl, rfl, rfl, rfl⟩ rfl rfl
        hEstablishes.channels ?_
      exact congrArg ([ServerEvent.opened fd] ++ ·) hEstablishes.events

end TcpServer

end Tinycoro.Net
