import Tinycoro.Library.Update
import Tinycoro.Net.Acceptance
import Tinycoro.Net.Locality

/-! The event loop, the connections of the server and the descriptors agree: an address in
the event loop is that of the accept channel or of a connection that exists, is open and
holds the descriptor. Every call keeps this. -/
namespace Tinycoro.Net

open Effect

namespace Conn

/-- No call adds an entry to the event loop for a connection that was started before. -/
theorem Step.life {c : Conn} {o : ConnOutcome} (h : Step c o) :
    o.state.life = c.life ∨ o.state.life = c.life.close := by
  cases h with
  | calls _ hCalls | waits _ hCalls => exact hCalls.life.imp id And.left
  | setsCallback set _ hEq | setsClose callback _ _ hEq | enters pc _ _ hEq
  | receives chunk b _ _ _ hEq | fails chunk e _ hEq => exact .inl (by rw [hEq]; rfl)
  | delivers _ hEq =>
    rw [hEq]
    exact (calls_deliver _).life.imp id And.left
  | closes _ hEq =>
    rw [hEq]
    exact .inr (life_close _)

theorem Step.entry_before {c : Conn} {o : ConnOutcome} (h : Step c o) {address : Nat}
    (hEntry : o.state.life.entry = some address) : c.life.entry = some address := by
  rcases h.life with hSame | hClose
  · rwa [hSame] at hEntry
  · rw [hClose, Life.close] at hEntry
    split at hEntry
    · exact hEntry
    · dsimp only at hEntry
      split at hEntry
      · split at hEntry
        · exact hEntry
        · cases hEntry
      · exact hEntry

/-- A connection lives on when the event loop keeps its entry. -/
theorem Live.frame {c : Conn} {loop : Io.EventLoop} (h : Live c)
    (hEntry : loop.channels c.connection.channel.fd = c.loop.channels c.connection.channel.fd) :
    Live { c with loop } := by
  have hLife : Conn.life { c with loop } = c.life := by
    simp only [Conn.life, hEntry]
  exact ⟨hLife ▸ h.life, h.pc⟩

end Conn

/-- What holds of one connection: it lives as the event loop has it, and its descriptor is open
and no other's. -/
structure Placed (w : TcpServer) (listen : Io.Channel) (id : Nat) (object : Object) : Prop where
  live : Conn.Live ⟨object.connection, w.loop, object.pc⟩
  address : object.connection.channel.address = id
  channelFd : object.connection.channel.fd = object.connection.fd
  apart : id ≠ listen.address
  descriptor : w.descriptors object.connection.fd = true
  notListening : object.connection.fd ≠ listen.fd

structure Wired (w : TcpServer) (listen : Io.Channel) : Prop where
  placed : ∀ {id object}, w.objects id = some object → Placed w listen id object
  distinct : ∀ {i j a b}, w.objects i = some a → w.objects j = some b →
    a.connection.fd = b.connection.fd → i = j
  listening : w.descriptors listen.fd = true
  known : ∀ {fd address}, w.loop.channels fd = some address →
    fd = listen.fd ∧ address = listen.address ∨ ∃ object, w.objects address = some object ∧
    object.connection.fd = fd

/-- A connection stays in its place when the event loop keeps its entry. -/
theorem Placed.frame {w w' : TcpServer} {listen : Io.Channel} {id : Nat} {object : Object}
    (h : Placed w listen id object)
    (hEntry : w'.loop.channels object.connection.fd = w.loop.channels object.connection.fd)
    (hDescriptor : w'.descriptors object.connection.fd = true) : Placed w' listen id object :=
  { h with live := h.live.frame (by rwa [h.channelFd]), descriptor := hDescriptor }

namespace TcpServer

/-- A call on a connection changes the event loop and the one object. -/
theorem act_parts {w : TcpServer} {id : Nat} {object : Object}
    (hObject : w.objects id = some object) (f : Conn → ConnOutcome) :
    (w.act id f none).state.loop = (f ⟨object.connection, w.loop, object.pc⟩).state.loop ∧
      (w.act id f none).state.objects = Function.update w.objects id
        (some ⟨(f ⟨object.connection, w.loop, object.pc⟩).state.connection,
          (f ⟨object.connection, w.loop, object.pc⟩).state.pc⟩) ∧
      (w.act id f none).state.descriptors = w.descriptors := by
  simp only [act, hObject, absorb_none]
  split <;> exact ⟨rfl, rfl, rfl⟩

end TcpServer

namespace Wired

variable {w w' : TcpServer} {listen : Io.Channel} {id : Nat} {object : Object} {fd : Int}

/-- What neither changes the connections nor the entries of the event loop. -/
theorem frame (h : Wired w listen) (hObjects : w'.objects = w.objects)
    (hChannels : w'.loop.channels = w.loop.channels)
    (hDescriptors : ∀ {fd}, w.descriptors fd = true → w'.descriptors fd = true) :
    Wired w' listen where
  placed := by
    rw [hObjects]
    exact fun hA => (h.placed hA).frame (congrFun hChannels _)
      (hDescriptors (h.placed hA).descriptor)
  distinct := by rw [hObjects]; exact h.distinct
  listening := hDescriptors h.listening
  known := by rw [hObjects, hChannels]; exact h.known

/-- A connection is registered exactly by what is in the event loop. -/
theorem registered (h : Wired w listen) (hObject : w.objects id = some object)
    (hEntry : w.loop.channels object.connection.fd = some id) :
    (Conn.mk object.connection w.loop object.pc).Registered := by
  simp only [Conn.Registered, (h.placed hObject).channelFd, (h.placed hObject).address]
  exact hEntry

/-- An address found in the event loop is that of the accept channel, which is then
registered, or of a connection, which is. -/
theorem found (h : Wired w listen) (hFound : w.loop.channels fd = some id) :
    (id = listen.address → w.loop.channels listen.fd = some listen.address) ∧
      (id ≠ listen.address → ∃ object, w.objects id = some object ∧
        (Conn.mk object.connection w.loop object.pc).Registered) := by
  rcases h.known hFound with ⟨rfl, rfl⟩ | ⟨object, hObject, rfl⟩
  · exact ⟨fun _ => hFound, fun hNe => absurd rfl hNe⟩
  · exact ⟨fun hEq => absurd hEq (h.placed hObject).apart, fun _ =>
      ⟨object, hObject, h.registered hObject hFound⟩⟩

/-- A call on a connection may remove its own entry from the event loop, and no other. -/
theorem call (h : Wired w listen) (hObject : w.objects id = some object) {a : ConnAction}
    (hEnabled : (Conn.mk object.connection w.loop object.pc).Enabled a)
    (hHere : ∀ loop, a ≠ .elsewhere loop) : Wired (w.act id (·.perform a) none).state listen := by
  have hPlaced := h.placed hObject
  have hStep := Conn.Step.of_enabled (fun _ _ => hPlaced.live.life) hEnabled
  have hLocal := (Conn.behaves_perform hEnabled hHere).keeps
  have hAfter := hPlaced.live.step hStep
  have hBefore : ∀ {address}, _ → _ := @Conn.Step.entry_before _ _ hStep
  obtain ⟨hLoop, hObjects, hDescriptors⟩ := TcpServer.act_parts hObject (·.perform a)
  generalize (Conn.mk object.connection w.loop object.pc).perform a = o at *
  have hFd : o.state.connection.fd = object.connection.fd := hLocal.fd
  have hOwn : object.connection.channel.fd = object.connection.fd := hPlaced.channelFd
  have hChannelFd : o.state.connection.channel.fd = object.connection.fd :=
    hLocal.channelFd.trans hOwn
  have hOthers {fd : Int} (hNe : fd ≠ object.connection.fd) :
      o.state.loop.channels fd = w.loop.channels fd := by
    refine hLocal.others fd ?_
    dsimp only
    rwa [hOwn]
  -- an object after the call is the one called, or another with another descriptor
  have hCases : ∀ {i x}, (w.act id (·.perform a) none).state.objects i = some x →
      i = id ∧ ⟨o.state.connection, o.state.pc⟩ = x ∨
        i ≠ id ∧ w.objects i = some x ∧ x.connection.fd ≠ object.connection.fd := by
    intro i x hX
    rw [hObjects] at hX
    rcases Update.some_cases hX with hSame | ⟨hNe, hOld⟩
    · exact .inl hSame
    · exact .inr ⟨hNe, hOld, fun hEq => hNe (h.distinct hOld hObject hEq)⟩
  refine ⟨?_, ?_, ?_, ?_⟩
  · intro i x hX
    rcases hCases hX with ⟨rfl, rfl⟩ | ⟨_, hOld, hNe⟩
    · exact ⟨hLoop ▸ hAfter, hLocal.address.trans hPlaced.address, hChannelFd.trans hFd.symm,
        hPlaced.apart, by rw [hDescriptors]; exact hFd ▸ hPlaced.descriptor,
        hFd ▸ hPlaced.notListening⟩
    · exact (h.placed hOld).frame (by rw [hLoop, hOthers hNe])
        (by rw [hDescriptors]; exact (h.placed hOld).descriptor)
  · intro i j x y hX hY hEq
    rcases hCases hX with ⟨rfl, rfl⟩ | ⟨_, hOldX, hNeX⟩
      <;> rcases hCases hY with ⟨rfl, rfl⟩ | ⟨_, hOldY, hNeY⟩
    · rfl
    · exact absurd (hEq.symm.trans hFd) hNeY
    · exact absurd (hEq.trans hFd) hNeX
    · exact h.distinct hOldX hOldY hEq
  · rw [hDescriptors]
    exact h.listening
  · intro fd address hEntry
    rw [hLoop] at hEntry
    rw [hObjects]
    have hOld : w.loop.channels fd = some address := by
      by_cases hSame : fd = object.connection.fd
      · subst hSame
        have hEntry' : o.state.life.entry = some address := by
          simp only [Conn.life, hChannelFd, hEntry]
        have hBack := hBefore hEntry'
        simp only [Conn.life, hOwn] at hBack
        exact hBack
      · rw [← hOthers hSame]
        exact hEntry
    rcases h.known hOld with hListen | ⟨x, hX, hFdX⟩
    · exact .inl hListen
    · right
      by_cases hSame : address = id
      · subst hSame
        cases hObject.symm.trans hX
        exact ⟨_, Function.update_self .., hFd.trans hFdX⟩
      · exact ⟨x, (Function.update_of_ne hSame ..).trans hX, hFdX⟩

/-- The entry of a connection that goes away is not left in the event loop. -/
theorem entry_destroy (h : Placed w listen id object) :
    (w.destroy id object).loop.channels object.connection.fd ≠ some id := by
  have hFd := h.channelFd
  have hLife := h.live.life
  have hEntry : w.loop.channels object.connection.fd = some id ↔
      object.connection.closed = false := by
    have hEntry := hLife.entry
    simp only [Conn.life, hFd, h.address] at hEntry
    exact hEntry
  have hStarted : object.connection.started = !object.connection.closed := hLife.started
  cases hClosed : object.connection.closed with
  | true =>
    have hSame : (w.destroy id object).loop.channels = w.loop.channels := by
      simp only [TcpServer.destroy, TcpServer.release, hClosed, not_true, and_false, if_false]
    rw [hSame, Ne, hEntry, hClosed]
    simp
  | false =>
    have hRemoved : w.loop.removeChannel object.connection.channel =
        ⟨Function.update w.loop.channels object.connection.channel.fd none,
          w.loop.kernel.ctlDel object.connection.channel.fd⟩ := by
      apply Io.EventLoop.removeChannel_of_channel
      · exact hLife.fd_nonneg
      · rw [hFd, h.address]
        exact hEntry.mpr hClosed
    have hGone : (w.destroy id object).loop.channels object.connection.fd = none := by
      simp only [TcpServer.destroy, TcpServer.release, hStarted, hClosed, Bool.not_false,
        Bool.false_eq_true, not_false_eq_true, and_self, if_true, hRemoved, hFd,
        Function.update_self]
    rw [hGone]
    simp

/-- A connection goes away, and its entry in the event loop with it. -/
theorem destroy (h : Wired w listen) (hObject : w.objects id = some object) :
    Wired (w.destroy id object) listen := by
  have hPlaced := h.placed hObject
  have hObjects := w.objects_destroy id object
  have hDescriptors := w.descriptors_destroy id object
  have hOthers : ∀ fd, fd ≠ object.connection.fd → (w.destroy id object).loop.channels fd =
      w.loop.channels fd := by
    intro fd hNe
    simp only [TcpServer.destroy, TcpServer.release]
    split
    · exact Io.EventLoop.removeChannel_other (by rwa [hPlaced.channelFd])
    · rfl
  have hCases : ∀ {i x}, (w.destroy id object).objects i = some x →
      i ≠ id ∧ w.objects i = some x ∧ x.connection.fd ≠ object.connection.fd := by
    intro i x hX
    rw [hObjects] at hX
    obtain ⟨hSame, hX⟩ := Update.of_none hX
    exact ⟨hSame, hX, fun hEq => hSame (h.distinct hX hObject hEq)⟩
  refine ⟨?_, ?_, ?_, ?_⟩
  · intro i x hX
    obtain ⟨_, hOld, hNe⟩ := hCases hX
    refine (h.placed hOld).frame (hOthers _ hNe) ?_
    rw [hDescriptors, Function.update_of_ne hNe]
    exact (h.placed hOld).descriptor
  · exact fun hX hY hEq => h.distinct (hCases hX).2.1 (hCases hY).2.1 hEq
  · rw [hDescriptors, Function.update_of_ne hPlaced.notListening.symm]
    exact h.listening
  · intro fd address hEntry
    have hNot : ¬ (fd = object.connection.fd ∧ address = id) := by
      rintro ⟨rfl, rfl⟩
      exact entry_destroy hPlaced hEntry
    have hOld : w.loop.channels fd = some address := by
      simp only [TcpServer.destroy, TcpServer.release] at hEntry
      split at hEntry
      · exact Io.EventLoop.removeChannel_before hEntry
      · exact hEntry
    rcases h.known hOld with hListen | ⟨x, hX, hFdX⟩
    · exact .inl hListen
    · refine .inr ⟨x, ?_, hFdX⟩
      have hNe : address ≠ id := by
        rintro rfl
        cases hObject.symm.trans hX
        exact hNot ⟨hFdX.symm, rfl⟩
      rw [hObjects, Function.update_of_ne hNe]
      exact hX

/-- A new connection with a descriptor that was not open. In the event loop at most the
entry of that descriptor changes, to the address of the new channel. -/
theorem add (h : Wired w listen) (hFree : w.objects id = none) (hNe : id ≠ listen.address)
    (hClosed : w.descriptors fd = false)
    (hObjects : w'.objects = Function.update w.objects id (some object))
    (hDescriptors : w'.descriptors = Function.update w.descriptors fd true)
    (hFd : object.connection.fd = fd) (hChannelFd : object.connection.channel.fd = fd)
    (hAddress : object.connection.channel.address = id)
    (hLive : Conn.Live ⟨object.connection, w'.loop, object.pc⟩)
    (hChannels : w'.loop.channels = w.loop.channels ∨
      w'.loop.channels = Function.update w.loop.channels fd (some id)) : Wired w' listen := by
  have hOther : ∀ {fd'}, w.descriptors fd' = true → fd' ≠ fd := by
    rintro fd' hTrue rfl
    exact absurd (hTrue.symm.trans hClosed) nofun
  have hKept : ∀ {fd'}, w.descriptors fd' = true → w'.descriptors fd' = true := by
    intro fd' hTrue
    rw [hDescriptors, Function.update_of_ne (hOther hTrue)]
    exact hTrue
  have hCases : ∀ {i x}, w'.objects i = some x → i = id ∧ object = x ∨ w.objects i = some x := by
    intro i x hX
    rw [hObjects] at hX
    exact (Update.some_cases hX).imp_right And.right
  refine ⟨?_, ?_, hKept h.listening, ?_⟩
  · intro i x hX
    rcases hCases hX with ⟨rfl, rfl⟩ | hOld
    · exact ⟨hLive, hAddress, hChannelFd.trans hFd.symm, hNe, by
        rw [hDescriptors, hFd, Function.update_self], hFd ▸ (hOther h.listening).symm⟩
    · have hDescriptor := (h.placed hOld).descriptor
      refine (h.placed hOld).frame ?_ (hKept hDescriptor)
      rcases hChannels with hSame | hAdded
      · rw [hSame]
      · rw [hAdded, Function.update_of_ne (hOther hDescriptor)]
  · intro i j x y hX hY hEq
    rcases hCases hX with ⟨rfl, rfl⟩ | hOldX <;> rcases hCases hY with ⟨rfl, rfl⟩ | hOldY
    · rfl
    · exact absurd (hEq.symm.trans hFd) (hOther (h.placed hOldY).descriptor)
    · exact absurd (hEq.trans hFd) (hOther (h.placed hOldX).descriptor)
    · exact h.distinct hOldX hOldY hEq
  · intro fd' address hEntry
    have hBefore : fd' = fd ∧ address = id ∨ w.loop.channels fd' = some address := by
      rcases hChannels with hSame | hAdded
      · rw [hSame] at hEntry
        exact .inr hEntry
      · by_cases hSame : fd' = fd
        · subst hSame
          rw [hAdded, Function.update_self] at hEntry
          exact .inl ⟨rfl, (Option.some.inj hEntry).symm⟩
        · rw [hAdded, Function.update_of_ne hSame] at hEntry
          exact .inr hEntry
    rcases hBefore with ⟨rfl, rfl⟩ | hBefore
    · exact .inr ⟨object, by rw [hObjects, Function.update_self], hFd⟩
    · rcases h.known hBefore with hListen | ⟨x, hX, hFdX⟩
      · exact .inl hListen
      · have hOld : address ≠ id := by
          rintro rfl
          rw [hFree] at hX
          cases hX
        exact .inr ⟨x, by rw [hObjects, Function.update_of_ne hOld, hX], hFdX⟩

/-- Whatever `handle_accept` comes to, the event loop and the connections agree behind it. -/
theorem accepts {fault : Option AcceptFault} {o : ServerOutcome} (h : Wired w listen)
    (hFree : w.objects w.fresh = none) (hNe : w.fresh ≠ listen.address) (hNonneg : 0 ≤ fd)
    (hClosed : w.descriptors fd = false) (hAccepts : TcpServer.Accepts w fd fault o) :
    Wired o.state listen := by
  have hOther : ∀ {fd'}, w.descriptors fd' = true → fd' ≠ fd := by
    rintro fd' hTrue rfl
    exact absurd (hTrue.symm.trans hClosed) nofun
  cases hAccepts with
  | refused e _ _ hObjects hChannels hDescriptors =>
    refine h.frame hObjects hChannels fun hTrue => ?_
    rw [hDescriptors, Function.update_of_ne (hOther hTrue), Function.update_of_ne (hOther hTrue)]
    exact hTrue
  | unmade e _ _ hObjects hChannels hDescriptors =>
    refine h.frame hObjects hChannels fun hTrue => ?_
    rw [hDescriptors, Function.update_of_ne (hOther hTrue)]
    exact hTrue
  | abandoned e object _ _ hMade hShut hStarted hChannels =>
    refine h.add hFree hNe hClosed hMade.objects hMade.descriptors hMade.holds hMade.channelFd
      hMade.address ⟨⟨?_, ?_, ?_⟩, fun hBusy => absurd hMade.pc hBusy⟩ (.inl hChannels)
    · exact hNonneg.trans_eq hMade.channelFd.symm
    · simp only [Conn.life, hStarted, hShut, Bool.not_true]
    · -- nobody else is registered with the address of the new connection
      simp only [Conn.life, hShut, hMade.address, hChannels, Bool.true_eq_false, iff_false]
      intro hEntry
      rcases h.known hEntry with ⟨_, hListen⟩ | ⟨x, hX, _⟩
      · exact hNe hListen
      · rw [hFree] at hX
        cases hX
  | established object _ _ hMade hOpen hStarted hChannels =>
    refine h.add hFree hNe hClosed hMade.objects hMade.descriptors hMade.holds hMade.channelFd
      hMade.address ⟨⟨?_, ?_, ?_⟩, fun hBusy => absurd hMade.pc hBusy⟩ (.inr hChannels)
    · exact hNonneg.trans_eq hMade.channelFd.symm
    · simp only [Conn.life, hStarted, hOpen, Bool.not_false]
    · simp only [Conn.life, hOpen, hMade.address, hMade.channelFd, hChannels, Function.update_self]

/-- The accept channel is registered. -/
theorem listen_add (h : Wired w listen) {loop : Io.EventLoop} {fails : Bool}
    (hAdd : w.loop.addChannel fails listen = .ok loop) : Wired { w with loop } listen := by
  obtain ⟨-, -, -, rfl⟩ := Io.EventLoop.addChannel_ok hAdd
  refine ⟨fun hX => (h.placed hX).frame ?_ (h.placed hX).descriptor, h.distinct, h.listening, ?_⟩
  · dsimp only
    rw [Function.update_of_ne (h.placed hX).notListening]
  · intro fd address hEntry
    by_cases hSame : fd = listen.fd
    · subst hSame
      simp only [Function.update_self, Option.some.injEq] at hEntry
      exact .inl ⟨rfl, hEntry.symm⟩
    · simp only [Function.update_of_ne hSame] at hEntry
      exact h.known hEntry

theorem create (descriptors : Int → Bool) (listen : Io.Channel) :
    Wired (TcpServer.create .create (Function.update descriptors listen.fd true)) listen :=
  ⟨nofun, nofun, Function.update_self .., nofun⟩

end Wired

end Tinycoro.Net
