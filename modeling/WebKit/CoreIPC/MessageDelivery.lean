import WebKit.CoreIPC.MessageStream

/-!
# Delivery of messages

The bytes and the descriptors of all messages make two streams.  The kernel hands them over in reads
of any size, each descriptor no later than the last byte of its message, and a sender may send at any
moment.  The receiver delivers as long as three things hold: no message is longer than the buffer, no
read brings more descriptors than the array has room for, and when a message with descriptors is taken
off, no descriptor of a later message is in the array yet.  `removeFileDescriptors` counts bytes where
elements are meant, so a descriptor that waits there is moved wrongly.
-/

namespace WebKit

open List
namespace CoreIPC

/-! ## The system -/

def byteStream (sent : List Sent) : Bytes := sent.flatMap fun s => s.packet.data

def fileDescriptorStream (sent : List Sent) : List FileDescriptor :=
  sent.flatMap fun s => s.packet.fileDescriptors

/-- Where the receiver is in `readyReadHandler`. -/
inductive Status where
  /-- Before `readBytesFromSocket`. -/
  | reading
  /-- In the loop that calls `processMessage`. -/
  | processing
  /-- After `connectionDidClose`. -/
  | closed
  /-- After an access outside an array. -/
  | undefined
  deriving DecidableEq

/-- Both ends and the kernel between them: the messages sent, how much of the two streams the kernel
has handed over, and the receiver with the messages it dispatched. -/
structure System where
  sent : List Sent := []
  bytesReceived : ℕ := 0
  fileDescriptorsReceived : ℕ := 0
  connection : Connection := {}
  status : Status := .reading
  dispatched : List Message := []

inductive Event where
  | send (s : Sent)
  /-- `recvmsg` returns `n` bytes and `k` descriptors. -/
  | read (n k : ℕ)
  /-- A call of `processMessage`, while the kernel maps memory as `mmap` says. -/
  | process (mmap : FileDescriptor → BitVec 64 → Option Bytes)

def bytesToRead (c : Connection) : ℕ := messageMaxSize - c.readBuffer.length

variable (σ : System)

/-- What the kernel may do: it returns no bytes only when it was asked for none, the descriptors of a
message arrive with its last byte or before, and it maps the memory of a message on its way as the
sender filled it. -/
def Enabled : Event → Prop
  | .send _ => True
  | .read n k => σ.status = .reading ∧ n ≤ bytesToRead σ.connection
    ∧ (n = 0 → bytesToRead σ.connection = 0)
    ∧ σ.bytesReceived + n ≤ (byteStream σ.sent).length
    ∧ σ.fileDescriptorsReceived + k ≤ (fileDescriptorStream σ.sent).length
    ∧ ∀ j ≤ σ.sent.length, (byteStream (σ.sent.take j)).length ≤ σ.bytesReceived + n →
      (fileDescriptorStream (σ.sent.take j)).length ≤ σ.fileDescriptorsReceived + k
  | .process mmap => σ.status = .processing
    ∧ ∀ s ∈ σ.sent.drop σ.dispatched.length, s.Mapped mmap

def step : Event → System
  | .send s => { σ with sent := σ.sent ++ [s] }
  | .read n k =>
    if n = 0 then { σ with status := .closed }
    else
      match readBytesFromSocket σ.connection
        (((byteStream σ.sent).drop σ.bytesReceived).take n)
        (((fileDescriptorStream σ.sent).drop σ.fileDescriptorsReceived).take k) with
      | none => { σ with status := .undefined }
      | some c =>
        { σ with
          bytesReceived := σ.bytesReceived + n
          fileDescriptorsReceived := σ.fileDescriptorsReceived + k
          connection := c
          status := .processing }
  | .process mmap =>
    match processMessage mmap σ.connection with
    | .incomplete => { σ with status := .reading }
    | .failed => { σ with status := .reading }
    | .processed m c => { σ with connection := c, dispatched := σ.dispatched ++ [m] }
    | .undefined => { σ with status := .undefined }

/-- Only sending changes what has been sent. -/
theorem sent_step_read (n k : ℕ) : (step σ (.read n k)).sent = σ.sent := by
  unfold step
  dsimp only
  split
  · rfl
  · split <;> rfl

theorem sent_step_process (mmap : FileDescriptor → BitVec 64 → Option Bytes) :
    (step σ (.process mmap)).sent = σ.sent := by
  unfold step
  dsimp only
  split <;> rfl

/-- The states of the runs whose steps all have the property `P`. -/
inductive Reachable (P : System → Event → Prop) : System → Prop
  | start : Reachable P {}
  | step {σ : System} {e : Event} (h : Reachable P σ) (enabled : Enabled σ e) (hP : P σ e) :
      Reachable P (step σ e)

/-- The messages dispatched are the first ones sent, each as it was sent; and whenever the receiver
goes back to reading, these are all that have arrived completely. -/
structure Delivers (σ : System) : Prop where
  running : σ.status = .reading ∨ σ.status = .processing
  inOrder : σ.dispatched = (σ.sent.take σ.dispatched.length).map (·.message)
  complete : σ.status = .reading → ∀ j ≤ σ.sent.length,
    (byteStream (σ.sent.take j)).length ≤ σ.bytesReceived → j ≤ σ.dispatched.length

/-- Every message sent fits into the buffer; a read brings no more descriptors than the array has
room for; and a complete message that is taken off has no descriptors, or no descriptor but its own
is in the array. -/
def Undisturbed : Event → Prop
  | .send s => s.packet.data.length ≤ messageMaxSize
  | .read _ k => σ.connection.fileDescriptorsSize + k ≤ attachmentMaxAmount
  | .process _ => ∀ s, σ.sent[σ.dispatched.length]? = some s →
    s.packet.data.length ≤ σ.connection.readBuffer.length → s.packet.fileDescriptors = []
        ∨ σ.connection.fileDescriptorsSize ≤ s.packet.fileDescriptors.length

/-! ## The invariant -/

theorem byteStream_append (l l' : List Sent) :
    byteStream (l ++ l') = byteStream l ++ byteStream l' := flatMap_append

theorem fileDescriptorStream_append (l l' : List Sent) :
    fileDescriptorStream (l ++ l') = fileDescriptorStream l ++ fileDescriptorStream l' :=
  flatMap_append

theorem byteStream_singleton (s : Sent) : byteStream [s] = s.packet.data :=
  flatMap_singleton _ _

theorem fileDescriptorStream_singleton (s : Sent) :
    fileDescriptorStream [s] = s.packet.fileDescriptors := flatMap_singleton _ _

/-- The buffers hold what has been handed over and not been dispatched. -/
structure Receives (σ : System) : Prop where
  running : σ.status = .reading ∨ σ.status = .processing
  inOrder : σ.dispatched = (σ.sent.take σ.dispatched.length).map (·.message)
  bytes : σ.connection.readBuffer <+: byteStream (σ.sent.drop σ.dispatched.length)
  bytesReceived : σ.bytesReceived
    = (byteStream (σ.sent.take σ.dispatched.length)).length + σ.connection.readBuffer.length
  fileDescriptors : σ.connection.fileDescriptors.take σ.connection.fileDescriptorsSize
    <+: fileDescriptorStream (σ.sent.drop σ.dispatched.length)
  fileDescriptorsReceived : σ.fileDescriptorsReceived
    = (fileDescriptorStream (σ.sent.take σ.dispatched.length)).length
      + σ.connection.fileDescriptorsSize
  size_le : σ.connection.fileDescriptorsSize ≤ attachmentMaxAmount
  length_array : σ.connection.fileDescriptors.length = attachmentMaxAmount
  inTime : ∀ j ≤ σ.sent.length, (byteStream (σ.sent.take j)).length ≤ σ.bytesReceived →
    (fileDescriptorStream (σ.sent.take j)).length ≤ σ.fileDescriptorsReceived
  fits : ∀ s ∈ σ.sent, s.packet.data.length ≤ messageMaxSize
  waiting : σ.status = .reading → ∀ s, σ.sent[σ.dispatched.length]? = some s →
    σ.connection.readBuffer.length < s.packet.data.length

namespace Receives

variable {σ : System}

theorem start : Receives {} where
  running := .inl rfl
  inOrder := rfl
  bytes := prefix_rfl
  bytesReceived := rfl
  fileDescriptors := prefix_rfl
  fileDescriptorsReceived := rfl
  size_le := Nat.zero_le _
  length_array := length_replicate
  inTime := by
    intro j hj _
    obtain rfl := Nat.le_zero.mp hj
    exact le_rfl
  fits := by
    intro s hs
    cases hs
  waiting := by
    intro _ s hs
    cases hs

variable (h : Receives σ)

include h

theorem dispatched_le : σ.dispatched.length ≤ σ.sent.length := by
  have hlength := congrArg List.length h.inOrder
  rw [length_map, length_take] at hlength
  omega

omit h in
theorem length_packet_data_pos (s : Sent) : 0 < s.packet.data.length := by
  rw [s.length_packet_data]
  unfold sizeOfMessageInfo
  omega

/-- When everything sent has been dispatched, the buffer is empty. -/
theorem readBuffer_eq_nil (hall : σ.sent[σ.dispatched.length]? = none) :
    σ.connection.readBuffer = [] := by
  have hbytes := h.bytes
  rw [drop_eq_nil_of_le (List.getElem?_eq_none_iff.mp hall)] at hbytes
  exact prefix_nil.mp hbytes

omit h in
/-- The rest of the messages starts with the next one. -/
theorem drop_dispatched {s : Sent} (hs : σ.sent[σ.dispatched.length]? = some s) :
    σ.sent.drop σ.dispatched.length = s :: σ.sent.drop (σ.dispatched.length + 1) := by
  obtain ⟨hlt, rfl⟩ := List.getElem?_eq_some_iff.mp hs
  exact drop_eq_getElem_cons hlt

omit h in
theorem take_dispatched {s : Sent} (hs : σ.sent[σ.dispatched.length]? = some s) :
    σ.sent.take (σ.dispatched.length + 1) = σ.sent.take σ.dispatched.length ++ [s] := by
  rw [take_add_one, hs]
  rfl

/-- Sending leaves the receiver as it is. -/
theorem send (hs : s.packet.data.length ≤ messageMaxSize) :
    Receives (CoreIPC.step σ (.send s)) := by
  have hle := h.dispatched_le
  have htake : (σ.sent ++ [s]).take σ.dispatched.length = σ.sent.take σ.dispatched.length :=
    take_append_of_le_length hle
  have hdrop : (σ.sent ++ [s]).drop σ.dispatched.length = σ.sent.drop σ.dispatched.length ++ [s] :=
    drop_append_of_le_length hle
  refine ⟨h.running, ?_, ?_, ?_, ?_, ?_, h.size_le, h.length_array, ?_, ?_, ?_⟩
  · show σ.dispatched = ((σ.sent ++ [s]).take σ.dispatched.length).map _
    rw [htake]
    exact h.inOrder
  · show _ <+: byteStream ((σ.sent ++ [s]).drop σ.dispatched.length)
    rw [hdrop, byteStream_append]
    exact h.bytes.trans (prefix_append _ _)
  · show _ = (byteStream ((σ.sent ++ [s]).take σ.dispatched.length)).length + _
    rw [htake]
    exact h.bytesReceived
  · show _ <+: fileDescriptorStream ((σ.sent ++ [s]).drop σ.dispatched.length)
    rw [hdrop, fileDescriptorStream_append]
    exact h.fileDescriptors.trans (prefix_append _ _)
  · show _ = (fileDescriptorStream ((σ.sent ++ [s]).take σ.dispatched.length)).length + _
    rw [htake]
    exact h.fileDescriptorsReceived
  · intro j _ hj
    show (fileDescriptorStream ((σ.sent ++ [s]).take j)).length ≤ σ.fileDescriptorsReceived
    have hj : (byteStream ((σ.sent ++ [s]).take j)).length ≤ σ.bytesReceived := hj
    rcases Nat.lt_or_ge σ.sent.length j with hlt | hge
    · -- the new message has not arrived
      have htotal : σ.bytesReceived ≤ (byteStream σ.sent).length := by
        have hlength := h.bytes.length_le
        have hsplit := congrArg (fun l => (byteStream l).length)
          (take_append_drop σ.dispatched.length σ.sent)
        simp only [byteStream_append, length_append] at hsplit
        have hreceived := h.bytesReceived
        omega
      rw [take_of_length_le (by rw [length_append, length_singleton]; omega),
        byteStream_append, byteStream_singleton, length_append] at hj
      have hpos := length_packet_data_pos s
      omega
    · rw [take_append_of_le_length hge] at hj ⊢
      exact h.inTime j hge hj
  · intro s' hs'
    rcases mem_append.mp hs' with hold | hnew
    · exact h.fits s' hold
    · obtain rfl := mem_singleton.mp hnew
      exact hs
  · intro hreading s' hs'
    have hs' : (σ.sent ++ [s])[σ.dispatched.length]? = some s' := hs'
    rcases hle.lt_or_eq with hlt | heq
    · rw [List.getElem?_append_left hlt] at hs'
      exact h.waiting hreading s' hs'
    · show σ.connection.readBuffer.length < _
      rw [h.readBuffer_eq_nil (List.getElem?_eq_none heq.ge)]
      exact length_packet_data_pos s'

omit h in
/-- What is left of a stream after the part that was handed over. -/
theorem prefix_append_take {α : Type*} {received stream : List α} (h : received <+: stream)
    (n : ℕ) :
    received ++ (stream.drop received.length).take n <+: stream := by
  obtain ⟨rest, rfl⟩ := h
  rw [drop_left]
  exact prefix_append_right_inj _ |>.mpr (List.take_prefix n rest)

/-- The stream from the received bytes on is the stream from the dispatched messages on, without what
is in the buffer. -/
theorem drop_byteStream : (byteStream σ.sent).drop σ.bytesReceived
    = (byteStream (σ.sent.drop σ.dispatched.length)).drop σ.connection.readBuffer.length := by
  have hsplit : byteStream σ.sent = byteStream (σ.sent.take σ.dispatched.length)
      ++ byteStream (σ.sent.drop σ.dispatched.length) := by
    rw [← byteStream_append, take_append_drop]
  rw [hsplit, h.bytesReceived, ← drop_drop, drop_left]

theorem drop_fileDescriptorStream :
    (fileDescriptorStream σ.sent).drop σ.fileDescriptorsReceived
      = (fileDescriptorStream (σ.sent.drop σ.dispatched.length)).drop
        σ.connection.fileDescriptorsSize := by
  have hsplit : fileDescriptorStream σ.sent = fileDescriptorStream (σ.sent.take σ.dispatched.length)
      ++ fileDescriptorStream (σ.sent.drop σ.dispatched.length) := by
    rw [← fileDescriptorStream_append, take_append_drop]
  rw [hsplit, h.fileDescriptorsReceived, ← drop_drop, drop_left]

theorem length_take_fileDescriptors :
    (σ.connection.fileDescriptors.take σ.connection.fileDescriptorsSize).length
      = σ.connection.fileDescriptorsSize := by
  rw [length_take, h.length_array]
  exact Nat.min_eq_left h.size_le

/-- While the receiver waits, it has room for more bytes. -/
theorem bytesToRead_pos (hreading : σ.status = .reading) :
    0 < bytesToRead σ.connection := by
  unfold bytesToRead
  cases hs : σ.sent[σ.dispatched.length]? with
  | none =>
    rw [h.readBuffer_eq_nil hs]
    exact Nat.zero_lt_of_ne_zero (by decide)
  | some s =>
    have hwaiting := h.waiting hreading s hs
    have hfits := h.fits s (mem_of_getElem? hs)
    omega

/-- A read appends to both buffers what comes next in the streams. -/
theorem read (he : Enabled σ (.read n k))
    (hu : Undisturbed σ (.read n k)) : Receives (CoreIPC.step σ (.read n k)) := by
  obtain ⟨hreading, -, hzero, hn, hk, hinTime⟩ := he
  have hpos := h.bytesToRead_pos hreading
  have hne : n ≠ 0 := fun hn0 => absurd (hzero hn0) hpos.ne'
  have hlength : ((byteStream σ.sent).drop σ.bytesReceived |>.take n).length = n := by
    rw [length_take, length_drop]
    omega
  have hlength' : ((fileDescriptorStream σ.sent).drop σ.fileDescriptorsReceived |>.take k).length
      = k := by
    rw [length_take, length_drop]
    omega
  have hroom : σ.connection.fileDescriptorsSize
      + ((fileDescriptorStream σ.sent).drop σ.fileDescriptorsReceived |>.take k).length
        ≤ σ.connection.fileDescriptors.length := by
    rw [hlength', h.length_array]
    exact hu
  have htake := h.length_take_fileDescriptors
  simp only [CoreIPC.step, if_neg hne, readBytesFromSocket, if_pos hroom]
  refine ⟨.inr rfl, h.inOrder, ?_, ?_, ?_, ?_, ?_, ?_, hinTime, h.fits, nofun⟩
  · rw [h.drop_byteStream]
    exact prefix_append_take h.bytes n
  · rw [length_append, hlength, h.bytesReceived, Nat.add_assoc]
  · rw [take_left' (by rw [length_append, htake, hlength'])]
    rw [h.drop_fileDescriptorStream]
    nth_rewrite 2 [← htake]
    exact prefix_append_take h.fileDescriptors k
  · rw [hlength', h.fileDescriptorsReceived, Nat.add_assoc]
  · rw [hlength']
    exact hu
  · rw [length_append, length_append, length_drop]
    have harray := h.length_array
    omega

omit h

section

variable (h : Receives σ) {s : Sent} (hs : σ.sent[σ.dispatched.length]? = some s)
include h hs

/-- The bytes that wait are the beginning of the next message when they are fewer than it has. -/
theorem readBuffer_append (hlt : σ.connection.readBuffer.length < s.packet.data.length) :
    ∃ rest, rest ≠ [] ∧ σ.connection.readBuffer ++ rest = s.packet.data := by
  have hbytes := h.bytes
  rw [drop_dispatched hs] at hbytes
  obtain ⟨rest, hrest⟩ := prefix_of_prefix_length_le hbytes (prefix_append _ _) hlt.le
  refine ⟨rest, ?_, hrest⟩
  rintro rfl
  rw [append_nil] at hrest
  exact absurd (congrArg List.length hrest) hlt.ne

/-- A message that arrived completely lies at the front of both buffers. -/
theorem front (hle : s.packet.data.length ≤ σ.connection.readBuffer.length) :
    ∃ rest waiting, σ.connection.readBuffer = s.packet.data ++ rest
      ∧ rest <+: byteStream (σ.sent.drop (σ.dispatched.length + 1))
      ∧ σ.connection.fileDescriptors.take σ.connection.fileDescriptorsSize
        = s.packet.fileDescriptors ++ waiting
      ∧ waiting <+: fileDescriptorStream (σ.sent.drop (σ.dispatched.length + 1)) := by
  have hbytes := h.bytes
  have hfds := h.fileDescriptors
  rw [drop_dispatched hs] at hbytes
  rw [drop_dispatched hs] at hfds
  have hlt := (List.getElem?_eq_some_iff.mp hs).1
  -- the last byte is there, so the descriptors are there
  have hcount : s.packet.fileDescriptors.length ≤ σ.connection.fileDescriptorsSize := by
    have hinTime := h.inTime (σ.dispatched.length + 1) hlt
    rw [take_dispatched hs, byteStream_append, byteStream_singleton, fileDescriptorStream_append,
      fileDescriptorStream_singleton, length_append, length_append, h.bytesReceived,
      h.fileDescriptorsReceived] at hinTime
    omega
  obtain ⟨rest, hrest⟩ := prefix_of_prefix_length_le (prefix_append _ _) hbytes hle
  obtain ⟨waiting, hwaiting⟩ := prefix_of_prefix_length_le (prefix_append _ _) hfds
    (hcount.trans_eq h.length_take_fileDescriptors.symm)
  refine ⟨rest, waiting, hrest.symm, ?_, hwaiting.symm, ?_⟩
  · rw [← hrest] at hbytes
    exact (prefix_append_right_inj _).mp hbytes
  · rw [← hwaiting] at hfds
    exact (prefix_append_right_inj _).mp hfds

end

/-- When a message that is complete has no descriptors, or none but its own is in the array, taking
its descriptors off leaves those of the later messages. -/
theorem removeFileDescriptors_eq {waiting : List FileDescriptor}
    (htake : c.fileDescriptors.take c.fileDescriptorsSize = fds ++ waiting)
    (hsize : c.fileDescriptorsSize ≤ c.fileDescriptors.length)
    (hu : fds = [] ∨ c.fileDescriptorsSize ≤ fds.length) :
    removeFileDescriptors c fds.length = some { c with fileDescriptorsSize := waiting.length }
      ∧ c.fileDescriptors.take waiting.length = waiting := by
  have hlength := congrArg List.length htake
  rw [length_take, length_append, Nat.min_eq_left hsize] at hlength
  unfold removeFileDescriptors
  rcases hu with rfl | hall
  · rw [length_nil, Nat.zero_add] at hlength
    rw [← hlength]
    exact ⟨rfl, htake⟩
  · obtain rfl : waiting = [] := eq_nil_of_length_eq_zero (by omega)
    refine ⟨?_, rfl⟩
    rw [if_neg (not_lt.mpr hall)]
    split
    · have hzero : c.fileDescriptorsSize = 0 := by omega
      rw [length_nil, ← hzero]
    · rfl

/-- A call of `processMessage` dispatches the next message if it has arrived completely. -/
theorem process (h : Receives σ)
    (he : Enabled σ (.process mmap)) (hu : Undisturbed σ (.process mmap)) :
    Receives (CoreIPC.step σ (.process mmap)) := by
  obtain ⟨hprocessing, hmapped⟩ := he
  -- nothing was taken off
  have hincomplete : processMessage mmap σ.connection = .incomplete →
      (∀ s, σ.sent[σ.dispatched.length]? = some s →
        σ.connection.readBuffer.length < s.packet.data.length) →
      Receives (CoreIPC.step σ (.process mmap)) := by
    intro hprocess hwaiting
    simp only [CoreIPC.step, hprocess]
    exact { h with running := .inl rfl, waiting := fun _ => hwaiting }
  cases hs : σ.sent[σ.dispatched.length]? with
  | none =>
    refine hincomplete ?_ (fun s hs' => absurd (hs.symm.trans hs') (by simp))
    unfold processMessage
    rw [h.readBuffer_eq_nil hs, if_pos (show ([] : Bytes).length < _ by decide)]
  | some s =>
    rcases Nat.lt_or_ge σ.connection.readBuffer.length s.packet.data.length with hlt | hge
    · obtain ⟨rest, hne, hrest⟩ := h.readBuffer_append hs hlt
      refine hincomplete (s.processMessage_incomplete hrest hne) fun s' hs' => ?_
      obtain rfl := Option.some.inj (hs.symm.trans hs')
      exact hlt
    · obtain ⟨rest, waiting, hbuffer, hbytes, htake, hfds⟩ := h.front hs hge
      have hmem : s ∈ σ.sent.drop σ.dispatched.length := by
        rw [drop_dispatched hs]
        exact mem_cons_self
      have harray : σ.connection.fileDescriptors = s.packet.fileDescriptors
          ++ (waiting ++ σ.connection.fileDescriptors.drop σ.connection.fileDescriptorsSize) := by
        rw [← append_assoc, ← htake, take_append_drop]
      have hsize : σ.connection.fileDescriptorsSize ≤ σ.connection.fileDescriptors.length :=
        h.length_array ▸ h.size_le
      obtain ⟨hremove, hkept⟩ := removeFileDescriptors_eq
        (c := { σ.connection with readBuffer := σ.connection.readBuffer.drop s.packet.data.length })
        htake hsize (hu s hs hge)
      have hcount := congrArg List.length htake
      rw [h.length_take_fileDescriptors, length_append] at hcount
      simp only [CoreIPC.step, s.processMessage_complete hbuffer harray (hmapped s hmem),
        finishMessage, hremove]
      refine ⟨.inr hprocessing, ?_, ?_, ?_, ?_, ?_, ?_, h.length_array, h.inTime, h.fits, ?_⟩
      · rw [length_append, length_singleton, take_dispatched hs, map_append, ← h.inOrder]
        rfl
      · rw [length_append]
        rw [hbuffer, drop_left]
        exact hbytes
      · rw [length_append, length_singleton, take_dispatched hs, byteStream_append,
          byteStream_singleton, length_append, h.bytesReceived, length_drop]
        omega
      · rw [length_append]
        rw [hkept]
        exact hfds
      · show σ.fileDescriptorsReceived = _ + waiting.length
        rw [length_append, length_singleton, take_dispatched hs,
          fileDescriptorStream_append, fileDescriptorStream_singleton, length_append,
          h.fileDescriptorsReceived]
        omega
      · have := h.size_le
        show waiting.length ≤ _
        omega
      · intro hreading
        exact absurd (hprocessing.symm.trans hreading) (by decide)

/-- Every run whose steps are undisturbed keeps the invariant. -/
theorem of_reachable (h : Reachable Undisturbed σ) : Receives σ := by
  induction h with
  | start => exact start
  | @step σ e _ enabled hP ih =>
    cases e with
    | send s => exact ih.send hP
    | read n k => exact ih.read enabled hP
    | process mmap => exact ih.process enabled hP

/-- When the receiver waits, no message that has arrived completely is left. -/
theorem complete (h : Receives σ) (hreading : σ.status = .reading)
    (hj : j ≤ σ.sent.length) (hreceived : (byteStream (σ.sent.take j)).length ≤ σ.bytesReceived) :
    j ≤ σ.dispatched.length := by
  by_contra hlt
  have hlt := Nat.lt_of_not_le hlt
  obtain ⟨s, hs⟩ : ∃ s, σ.sent[σ.dispatched.length]? = some s :=
    ⟨_, List.getElem?_eq_getElem (hlt.trans_le hj)⟩
  have hwaiting := h.waiting hreading s hs
  -- the next message is among the first `j`
  obtain ⟨others, hothers⟩ : σ.sent.take (σ.dispatched.length + 1) <+: σ.sent.take j :=
    take_prefix_take_left hlt
  have hlength := congrArg (fun l => (byteStream l).length) hothers
  simp only [take_dispatched hs, byteStream_append, byteStream_singleton, length_append] at hlength
  have htotal := h.bytesReceived
  omega

end Receives

/-- A message with eight bytes of body and a socket for each of the descriptors. -/
def socketMessage (id : BitVec 32) (fds : List FileDescriptor) : Message where
  messageID := MessageID.fromInt id
  body := List.replicate 8 0
  attachments := fds.map Attachment.socket

def socketPacket (id : BitVec 32) (fds : List FileDescriptor) : Packet :=
  (sendOutgoingMessage (socketMessage id fds) (some 0#32)).getD ⟨[], []⟩

def firstSent : Sent where
  message := socketMessage 1#32 [10#32]
  sharedMemory := 0#32
  packet := socketPacket 1#32 [10#32]
  accepted := by decide +kernel
  isOpen := by decide
  bodySize_lt := by decide

def secondSent : Sent where
  message := socketMessage 2#32 [11#32, 12#32, 13#32, 14#32]
  sharedMemory := 0#32
  packet := socketPacket 2#32 [11#32, 12#32, 13#32, 14#32]
  accepted := by decide +kernel
  isOpen := by decide
  bodySize_lt := by decide

/-- Both bodies are short enough to go with their messages. -/
theorem mapped_of_inline {s : Sent} (hs : bodyIsOOL s.message = false)
    (mmap : FileDescriptor → BitVec 64 → Option Bytes) : s.Mapped mmap :=
  fun hool => absurd (hs.symm.trans hool) Bool.false_ne_true

theorem enabled_process {σ : System} (hsent : σ.sent = [firstSent, secondSent])
    (hstatus : σ.status = .processing) : Enabled σ (.process fun _ _ => none) := by
  have hinline : bodyIsOOL firstSent.message = false ∧ bodyIsOOL secondSent.message = false := by
    decide +kernel
  refine ⟨hstatus, fun s hs => ?_⟩
  rcases mem_cons.mp (hsent ▸ mem_of_mem_drop hs) with rfl | hs
  · exact mapped_of_inline hinline.1 _
  · obtain rfl := mem_singleton.mp hs
    exact mapped_of_inline hinline.2 _

theorem undisturbed_process {σ : System} (h : (σ.sent[σ.dispatched.length]?).all (fun s =>
      decide (s.packet.data.length ≤ σ.connection.readBuffer.length →
        s.packet.fileDescriptors = [] ∨
          σ.connection.fileDescriptorsSize ≤ s.packet.fileDescriptors.length)) = true) :
    Undisturbed σ (.process fun _ _ => none) := by
  intro s hs
  rw [hs] at h
  exact of_decide_eq_true h

/-- A part of the first message is read, and then the rest with a part of the second. -/
def cutRead : System :=
  step (step (step (step (step {} (.send firstSent)) (.send secondSent)) (.read 20 0))
    (.process fun _ _ => none)) (.read 46 1)

/-- Both messages are read at once; the descriptors of the second wait while the first is taken
off. -/
def bothRead : System :=
  step (step (step {} (.send firstSent)) (.send secondSent)) (.read 184 5)

theorem reachable_bothRead : Reachable (fun _ _ => True) bothRead := by
  refine ((Reachable.start.step (e := .send firstSent) trivial trivial).step
    (e := .send secondSent) trivial trivial).step ?_ trivial
  exact ⟨rfl, by decide +kernel, nofun, by decide +kernel, by decide +kernel, by decide +kernel⟩

def bothProcessed : System :=
  step (step bothRead (.process fun _ _ => none)) (.process fun _ _ => none)

theorem reachable_bothProcessed : Reachable (fun _ _ => True) bothProcessed := by
  have hsent : bothRead.sent = [firstSent, secondSent] := sent_step_read _ _ _
  refine (reachable_bothRead.step (e := .process fun _ _ => none)
    (enabled_process hsent ?_) trivial).step (enabled_process ?_ ?_) trivial
  · decide +kernel
  · rw [sent_step_process, hsent]
  · decide +kernel

end CoreIPC
end WebKit
