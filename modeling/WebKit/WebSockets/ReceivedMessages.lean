import WebKit.WebSockets.ReceivedStream

/-!
# The messages of a stream

`readMessages` is what the frames of a stream say: the messages put together from their frames, with
the control frames where they occur, up to a violation, a text that is not UTF-8 or a Close frame.
A channel does what `readMessages` says, however the stream is cut, exactly when nothing disturbs it:
the socket takes the replies, and no text is longer than a string can be (`readsStream_iff`).
-/

namespace WebKit

open List
namespace WebSockets

open WTF (UString fromUTF8 utf8 StringImpl.maxLength)
open WTF.Unicode (convertUTF8ToUTF16)
open OutgoingFrameQueueStatus BlobLoaderStatus
open WebSocketChannel (receivedCloseCode receivedCloseReason)

/-! ## Reading a stream -/

/-- What comes out of a stream. -/
inductive StreamEvent
  | text (data : Bytes)
  | binary (data : Bytes)
  | ping (payload : Bytes)
  | close (payload : Bytes)
  | violation (failure : Failure)

/-- The complete frames of a stream, and the length of a frame after them that is too long. -/
def readFrames (stream : Bytes) : List FrameData × Option ℕ :=
  match _ : parseFrame stream with
  | .frameIncomplete => ([], none)
  | .frameError payloadLength => ([], some payloadLength)
  | .frameOK frame =>
    let r := readFrames (stream.drop frame.frameEnd)
    (frame :: r.1, r.2)
termination_by stream.length
decreasing_by
  obtain ⟨h2, hle, -⟩ := parseFrame_frameEnd ‹_›
  rw [length_drop]
  omega

/-- A message that is not finished: the opcode of its first frame and the data so far. -/
abbrev Message := OpCode × Bytes

/-- The message with the data of one more frame. -/
def extendMessage (message : Option Message) (frame : FrameData) : Message :=
  match message with
  | none => (frame.opCode, frame.payload)
  | some (opCode, data) => (opCode, data ++ frame.payload)

/-- What comes out of a whole message; the reading ends with a text that is not UTF-8. -/
def finishMessage : Message → List StreamEvent × Option (Option Message)
  | (opCode, data) =>
    if opCode = opCodeText then
      ([.text data], if (convertUTF8ToUTF16 data).isSome then some none else none)
    else ([.binary data], some none)

/-- What comes out of one frame, and the unfinished message after it, unless the reading ends. -/
def readFrameEvents (message : Option Message) (frame : FrameData) :
    List StreamEvent × Option (Option Message) :=
  match frameFailure message.isSome frame with
  | some failure => ([.violation failure], none)
  | none =>
    if frame.opCode = opCodeClose then ([.close frame.payload], none)
    else if frame.opCode = opCodePing then ([.ping frame.payload], some message)
    else if frame.opCode = opCodePong then ([], some message)
    else if frame.final then finishMessage (extendMessage message frame)
    else ([], some (some (extendMessage message frame)))

/-- What comes out of the frames of a stream. -/
def readMessages (message : Option Message) : List FrameData → Option ℕ → List StreamEvent
  | [], none => []
  | [], some payloadLength => [.violation (.frameLengthTooLarge payloadLength)]
  | frame :: frames, tooLong =>
    (readFrameEvents message frame).1 ++
      match (readFrameEvents message frame).2 with
      | none => []
      | some message' => readMessages message' frames tooLong

/-- What comes out of a whole stream. -/
def readStreamEvents (stream : Bytes) : List StreamEvent :=
  readMessages none (readFrames stream).1 (readFrames stream).2

variable {stream : Bytes} {frame : FrameData}

theorem readFrames_incomplete (h : parseFrame stream = .frameIncomplete) :
    readFrames stream = ([], none) := by
  rw [readFrames]
  split
  · rfl
  all_goals
    rename_i heq
    rw [h] at heq
    cases heq

theorem readFrames_error (h : parseFrame stream = .frameError payloadLength) :
    readFrames stream = ([], some payloadLength) := by
  rw [readFrames]
  split
  · rename_i heq
    rw [h] at heq
    cases heq
  · rename_i heq
    rw [h] at heq
    cases heq
    rfl
  · rename_i heq
    rw [h] at heq
    cases heq

theorem readFrames_frame
    (h : parseFrame stream = .frameOK frame) :
    readFrames stream = (frame :: (readFrames (stream.drop frame.frameEnd)).1,
      (readFrames (stream.drop frame.frameEnd)).2) := by
  rw [readFrames]
  split
  · rename_i heq
    rw [h] at heq
    cases heq
  · rename_i heq
    rw [h] at heq
    cases heq
  · rename_i heq
    rw [h] at heq
    cases heq
    rfl

/-- A valid frame is of one of five kinds. -/
theorem frameFailure_none (h : frameFailure unfinished frame = none) :
    (frame.opCode = opCodeContinuation ∧ unfinished = true) ∨
      ((frame.opCode = opCodeText ∨ frame.opCode = opCodeBinary) ∧ unfinished = false) ∨
      frame.opCode = opCodeClose ∨ frame.opCode = opCodePing ∨ frame.opCode = opCodePong := by
  rw [frameFailure] at h
  split at h
  · cases h
  · rename_i hreserved
    simp only [isReservedOpCode, isNonControlOpCode, isControlOpCode] at hreserved
    iterate 3
      split at h
      · cases h
    split at h
    · cases h
    · rename_i hunfinished
      split at h
      · cases h
      · rename_i hcontinuation
        simp only [isControlOpCode] at hunfinished hcontinuation
        cases unfinished with
        | true => grind
        | false => grind

/-- What a channel should do about it, when it has begun to close or not. -/
def StreamEvent.effects (closing : Bool) : StreamEvent → List Effect
  | text data =>
    match convertUTF8ToUTF16 data with
    | some message => [.didReceiveMessage message]
    | none => [.failed .notUTF8]
  | binary data => [.didReceiveBinaryData data]
  | ping payload => [.enqueued (.vector opCodePong payload)]
  | close payload =>
    .receivedClose (receivedCloseCode payload) (receivedCloseReason payload) ::
      if closing then [] else [.enqueued (.vector opCodeClose []), .didStartClosingHandshake]
  | violation failure => [.failed failure]

/-- The calls of the client for messages and the handshake, the frames enqueued, and the failures
and Close frames. -/
def Effect.isObserved : Effect → Bool
  | didReceiveMessage _ => true
  | didReceiveBinaryData _ => true
  | didStartClosingHandshake => true
  | failed _ => true
  | networkError => true
  | enqueued _ => true
  | receivedClose _ _ => true
  | _ => false

/-- The close code and reason after an event. -/
def closeEvent (recorded : ℕ × Option UString) : StreamEvent → ℕ × Option UString
  | .close payload => (receivedCloseCode payload, receivedCloseReason payload)
  | _ => recorded

namespace WebSocketChannel

/-- The observed effects of the log. -/
def observed (s : WebSocketChannel) : List Effect := s.log.filter Effect.isObserved

/-- The channel after the events, as far as its client and the server can tell. -/
structure Reads (t r : WebSocketChannel) (events : List StreamEvent) : Prop where
  observed : r.observed = t.observed ++ (events.map (StreamEvent.effects t.closing)).flatten
  closeEvent : (r.closeEventCode, r.closeEventReason) =
    events.foldl closeEvent (t.closeEventCode, t.closeEventReason)
  crashed : r.crashed = false

/-- The number of frames that an event makes the channel send. -/
def replies (closing : Bool) : StreamEvent → ℕ
  | .ping _ => 1
  | .close _ => if closing then 0 else 1
  | _ => 0

section Socket

variable (socket : SocketStreamHandle)

/-- The socket takes the reply, which is the one after `sends` others, and a text is not longer than
a string can be. -/
def IsTaken (closing : Bool) (sends : ℕ) : StreamEvent → Prop
  | .text data => data.length ≤ StringImpl.maxLength false
  | .ping _ => socket.result sends = .taken
  | .close _ => closing = true ∨ socket.result sends = .taken
  | _ => True

/-- Nothing disturbs the channel while it handles the events. -/
def Undisturbed (closing : Bool) : ℕ → List StreamEvent → Prop
  | _, [] => True
  | sends, event :: events =>
    IsTaken socket closing sends event ∧ Undisturbed closing (sends + replies closing event) events

end Socket

/-! ## A channel that reads -/

/-- A channel that can send, with nothing to send. -/
structure IsSending (t : WebSocketChannel) : Prop where
  document : t.document = true
  client : t.client = true
  handle : t.handle = true
  suspended : t.suspended = false
  closed : t.closed = false
  queue : t.outgoingFrameQueue = []
  status : t.outgoingFrameQueueStatus = outgoingFrameQueueOpen
  loader : t.blobLoaderStatus ≠ blobLoaderStarted

/-- A channel that can read, too, in the middle of a message or not. -/
structure IsReading (t : WebSocketChannel) (message : Option Message) : Prop
    extends IsSending t where
  discards : t.shouldDiscardReceivedData = false
  freed : t.freed = false
  received : t.receivedClosingHandshake = false
  crashed : t.crashed = false
  unfinished : t.hasContinuousFrame = message.isSome
  kept : ∀ m, message = some m → (t.continuousFrameOpCode, t.continuousFrameData) = m ∧
    (m.1 = opCodeText ∨ m.1 = opCodeBinary)
  noMessage : message = none → t.continuousFrameData = []

variable {socket : SocketStreamHandle} {t : WebSocketChannel} {message : Option Message}

variable (h : IsReading t message)

include h

theorem IsReading.record (log : List Effect) (sends : ℕ) :
    IsReading { t with log := log, sends := sends } message :=
  { h with }

theorem IsReading.stops : t.stops = false := by
  rw [WebSocketChannel.stops, h.client, h.discards, h.received, h.crashed]
  rfl

theorem IsReading.isAttached : IsAttached t :=
  ⟨h.suspended, h.document.trans h.client.symm,
    fun hfreed => absurd (h.freed.symm.trans hfreed) Bool.false_ne_true⟩

omit h in
/-- What failing makes of the channel. -/
theorem IsSending.fail (h : IsSending t) (failure : Failure) : t.fail failure =
      { t with
        document := false
        client := false
        handle := false
        buffer := []
        freed := true
        closed := true
        shouldDiscardReceivedData := true
        hasContinuousFrame := false
        continuousFrameData := []
        outgoingFrameQueue := []
        outgoingFrameQueueStatus := outgoingFrameQueueClosed
        log := t.log ++ [.failed failure] ++ [.queueStatus outgoingFrameQueueClosed] ++
          [.didClose t.receivedClosingHandshake t.closeEventCode t.closeEventReason] } := by
  simp [WebSocketChannel.fail, discardReceivedData, effectIf, didCloseSocketStream, setClosed,
    abortOutgoingFrameQueue, setQueueStatus, effect, h.document, h.client, h.handle, h.suspended,
    h.closed, h.status, h.loader]

omit h in
/-- What a failed write makes of the channel. -/
theorem IsSending.didFailSocketStream (h : IsSending t) : t.didFailSocketStream =
      { t with
        document := false
        client := false
        handle := false
        closed := true
        shouldDiscardReceivedData := true
        outgoingFrameQueue := []
        outgoingFrameQueueStatus := outgoingFrameQueueClosed
        log := t.log ++ [.networkError] ++ [.queueStatus outgoingFrameQueueClosed] ++
          [.didClose t.receivedClosingHandshake t.closeEventCode t.closeEventReason] } := by
  simp [WebSocketChannel.didFailSocketStream, effectIf, didCloseSocketStream, setClosed,
    abortOutgoingFrameQueue, setQueueStatus, effect, h.document, h.client, h.handle, h.suspended,
    h.status, h.loader]

variable {failure : Failure} {event : StreamEvent} {events : List StreamEvent}

omit h in
/-- A send that does not succeed leaves a channel without a socket. -/
theorem IsSending.giveToSocket (h : IsSending t) (hresult : result ≠ .taken) (bytes : Bytes) :
    (t.giveToSocket bytes result).handle = false ∧
      (t.giveToSocket bytes result).outgoingFrameQueue = [] ∧
      (t.giveToSocket bytes result).outgoingFrameQueueStatus = outgoingFrameQueueClosed := by
  cases result with
  | taken => exact absurd rfl hresult
  | refused =>
    rw [WebSocketChannel.giveToSocket, h.fail]
    exact ⟨rfl, rfl, rfl⟩
  | failed returned =>
    rw [WebSocketChannel.giveToSocket, h.didFailSocketStream]
    cases returned with
    | _ => exact ⟨rfl, rfl, rfl⟩

/-- Failing is observed once. -/
theorem IsReading.reads_fail (heffects : event.effects t.closing = [.failed failure])
    (hclose : ∀ recorded, closeEvent recorded event = recorded) :
    Reads t (t.fail failure) [event] := by
  rw [h.fail]
  constructor
  · rw [map_singleton, heffects]
    simp only [WebSocketChannel.observed, filter_append, append_assoc]
    rfl
  · exact (hclose _).symm
  · exact h.crashed

omit h in
theorem sendQueuedFrames_nil (hqueue : t.outgoingFrameQueue = [])
    (hstatus : t.outgoingFrameQueueStatus ≠ outgoingFrameQueueClosing) :
    sendQueuedFrames socket 1 t = t := by
  rw [sendQueuedFrames, hqueue]
  exact if_neg hstatus

omit h in
/-- A frame that is put into the empty queue is given to the socket. -/
theorem IsSending.enqueueFrame (h : IsSending t) (opCode : OpCode) (data : Bytes) :
    t.enqueueRawFrame socket opCode data =
      ({ t with sends := t.sends + 1 }.effect (.enqueued (.vector opCode data))).giveToSocket
        (frameBytes opCode (socket.maskingKey t.sends) data) (socket.result t.sends) := by
  have hopen : t.outgoingFrameQueueStatus ≠ outgoingFrameQueueClosed := by
    rw [h.status]
    decide
  have henqueued : IsSending ({ t with sends := t.sends + 1 }.effect
      (.enqueued (.vector opCode data))) := { h with }
  -- one round sends the frame, and the next one finds the queue empty
  have hrounds : t.enqueueRawFrame socket opCode data = sendQueuedFrames socket 1 (sendFrame socket
        (t.effect (.enqueued (.vector opCode data))) opCode data) := by
    have hqueue : { t with outgoingFrameQueue := t.outgoingFrameQueue ++ [.vector opCode data] } =
        { t with outgoingFrameQueue := [.vector opCode data] } := by
      rw [h.queue, nil_append]
    have htaken : { t with outgoingFrameQueue := [] } = t := by
      rw [← h.queue]
    rw [enqueueRawFrame, WebSocketChannel.enqueueFrame, hqueue]
    refine (if_neg hopen).trans ?_
    change sendQueuedFrames socket 1 (sendFrame socket
      ({ t with outgoingFrameQueue := [] }.effect (.enqueued (.vector opCode data))) opCode
        data) = _
    rw [htaken]
  have hsend : sendFrame socket (t.effect (.enqueued (.vector opCode data))) opCode data =
      ({ t with sends := t.sends + 1 }.effect (.enqueued (.vector opCode data))).giveToSocket
        (frameBytes opCode (socket.maskingKey t.sends) data) (socket.result t.sends) :=
    if_pos h.handle
  rw [hrounds, hsend]
  by_cases hresult : socket.result t.sends = .taken
  · rw [hresult, WebSocketChannel.giveToSocket]
    split
    · exact sendQueuedFrames_nil h.queue (h.status.trans_ne (by decide))
    · exact sendQueuedFrames_nil h.queue (h.status.trans_ne (by decide))
  · obtain ⟨-, hqueue, hstatus⟩ := henqueued.giveToSocket hresult
      (frameBytes opCode (socket.maskingKey t.sends) data)
    exact sendQueuedFrames_nil hqueue (hstatus.trans_ne (by decide))

/-! ## One frame -/

/-- The channel after the events: it has stopped, or it is in the middle of the next message. -/
def Continues (t r : WebSocketChannel) (events : List StreamEvent) : Option (Option Message) → Prop
  | none => r.stops = true
  | some next => IsReading r next ∧ r.closing = t.closing ∧
      r.sends = t.sends + (events.map (replies t.closing)).sum

/-- The channel has crashed, or it has reported that a write failed. -/
structure Disturbed (t r : WebSocketChannel) : Prop where
  stops : r.stops = true
  error : r.crashed = true ∨ ∃ more, r.observed = t.observed ++ more ∧ .networkError ∈ more

/-- The channel does what the events say, unless it is disturbed. -/
structure Handles (socket : SocketStreamHandle) (t r : WebSocketChannel)
    (events : List StreamEvent) (next : Option (Option Message)) : Prop where
  reads : Undisturbed socket t.closing t.sends events → Reads t r events ∧ Continues t r events next
  disturbed : ¬Undisturbed socket t.closing t.sends events → Disturbed t r

omit h in
/-- Only what is observed of the channel matters, and its replies. -/
theorem Handles.of_same {next} (h : Handles socket t' r events next)
    (hobserved : t'.observed = t.observed) (hcode : t'.closeEventCode = t.closeEventCode)
    (hreason : t'.closeEventReason = t.closeEventReason) (hclosing : t'.closing = t.closing)
    (hsends : t'.sends = t.sends) : Handles socket t r events next := by
  constructor
  · intro htaken
    rw [← hclosing, ← hsends] at htaken
    obtain ⟨hreads, hcontinues⟩ := h.reads htaken
    refine ⟨⟨?_, ?_, hreads.crashed⟩, ?_⟩
    · rw [hreads.observed, hobserved, hclosing]
    · rw [hreads.closeEvent, hcode, hreason]
    · cases next with
      | none => exact hcontinues
      | some next =>
        obtain ⟨hnext, hclosing', hsends'⟩ := hcontinues
        refine ⟨hnext, hclosing'.trans hclosing, ?_⟩
        rw [hsends', hsends, hclosing]
  · intro hnot
    rw [← hclosing, ← hsends] at hnot
    obtain ⟨hstops, herror⟩ := h.disturbed hnot
    exact ⟨hstops, hobserved ▸ herror⟩

omit h in
theorem Disturbed.of_crashed (h : r.crashed = true) : Disturbed t r :=
  ⟨by rw [WebSocketChannel.stops, h, Bool.or_true], .inl h⟩

omit h in
/-- What disturbs the channel after some events. -/
theorem Reads.disturbed (h : Reads t r events) (h' : Disturbed r r') : Disturbed t r' := by
  refine ⟨h'.stops, h'.error.imp_right ?_⟩
  rintro ⟨more, hobserved, herror⟩
  rw [hobserved, h.observed, append_assoc]
  exact ⟨_, rfl, mem_append_right _ herror⟩

omit h in
/-- No event of a stream makes a write fail. -/
theorem networkError_not_mem (closing : Bool) (events : List StreamEvent) :
    Effect.networkError ∉ (events.map (StreamEvent.effects closing)).flatten := by
  rw [mem_flatten]
  rintro ⟨effects, heffects, herror⟩
  obtain ⟨event, -, rfl⟩ := mem_map.mp heffects
  cases event with
  | text data =>
    rw [StreamEvent.effects] at herror
    split at herror
    · cases mem_singleton.mp herror
    · cases mem_singleton.mp herror
  | close payload =>
    rw [StreamEvent.effects] at herror
    cases closing with
    | _ => simp at herror
  | _ => cases mem_singleton.mp herror

theorem IsReading.handles_fail (heffects : event.effects t.closing = [.failed failure])
    (hclose : ∀ recorded, closeEvent recorded event = recorded)
    (htaken : IsTaken socket t.closing t.sends event) :
    Handles socket t (t.fail failure) [event] none :=
  ⟨fun _ => ⟨h.reads_fail heffects hclose, stops_fail _ _⟩, fun hnot => absurd ⟨htaken, trivial⟩ hnot⟩

/-- A Ping is answered, or the channel is disturbed. -/
theorem IsReading.receivePing (hshort : IsShort payload) :
    Handles socket t (t.receivePing socket payload) [.ping payload] (some message) := by
  rw [WebSocketChannel.receivePing, h.enqueueFrame]
  have hsending : IsSending (({ t with sends := t.sends + 1 } : WebSocketChannel).effect
      (.enqueued (.vector opCodePong payload))) := { h with }
  constructor
  · intro htaken
    rw [show socket.result t.sends = .taken from htaken.1, giveToSocket_taken hshort]
    have hfreed : ((({ t with sends := t.sends + 1 } : WebSocketChannel).effect
        (.enqueued (.vector opCodePong payload))).effect (.sent (frameBytes opCodePong
          (socket.maskingKey t.sends) payload))).freed = false := h.freed
    rw [if_neg (by rw [hfreed]; decide)]
    refine ⟨⟨?_, rfl, h.crashed⟩, h.record _ _, rfl, rfl⟩
    simp only [WebSocketChannel.observed, effect, filter_append, append_assoc]
    rfl
  · intro hnot
    cases hresult : socket.result t.sends with
    | taken => exact absurd ⟨hresult, trivial⟩ hnot
    | refused =>
      rw [WebSocketChannel.giveToSocket, hsending.fail]
      exact .of_crashed rfl
    | failed returned =>
      cases returned with
      | false =>
        rw [WebSocketChannel.giveToSocket, if_neg Bool.false_ne_true, hsending.didFailSocketStream]
        exact .of_crashed rfl
      | true =>
        -- the buffer is still there, and the channel has left its client
        have hkept : ∀ r : WebSocketChannel, r.freed = false →
            (if r.freed = true then r.crash else r) = r :=
          fun r hr => if_neg (by rw [hr]; exact Bool.false_ne_true)
        rw [WebSocketChannel.giveToSocket, if_pos rfl, hsending.didFailSocketStream, hkept]
        · refine ⟨rfl, .inr ⟨[.enqueued (.vector opCodePong payload), .networkError], ?_, ?_⟩⟩
          · simp only [WebSocketChannel.observed, effect, filter_append, append_assoc]
            rfl
          · exact mem_cons_of_mem _ mem_cons_self
        · exact h.freed

omit h

/-- A text is decoded, or the channel crashes. -/
theorem IsReading.deliverText (h : IsReading t none) (data : Bytes) :
    Handles socket t (t.deliverText data) [.text data]
      (if (convertUTF8ToUTF16 data).isSome then some none else none) := by
  have hdelivered : ∀ message, StreamEvent.effects t.closing (.text data) =
      [.didReceiveMessage message] → Reads t (t.effect (.didReceiveMessage message)) [.text data] ∧
          Continues t (t.effect (.didReceiveMessage message)) [.text data] (some none) := by
    intro message heffects
    refine ⟨⟨?_, rfl, h.crashed⟩, h.record _ _, rfl, rfl⟩
    rw [map_singleton, heffects]
    simp only [WebSocketChannel.observed, effect, filter_append]
    rfl
  rw [WebSocketChannel.deliverText]
  by_cases hempty : data = []
  · subst hempty
    exact ⟨fun _ => hdelivered [] rfl, fun hnot => absurd ⟨Nat.zero_le _, trivial⟩ hnot⟩
  · rw [if_neg hempty]
    by_cases hshort : data.length ≤ StringImpl.maxLength false
    · rw [show fromUTF8 data = some (convertUTF8ToUTF16 data) from if_pos hshort]
      cases hdecoded : convertUTF8ToUTF16 data with
      | some message =>
        have heffects : StreamEvent.effects t.closing (.text data) =
            [.didReceiveMessage message] := by
          rw [StreamEvent.effects, hdecoded]
        exact ⟨fun _ => hdelivered message heffects, fun hnot => absurd ⟨hshort, trivial⟩ hnot⟩
      | none =>
        have heffects : StreamEvent.effects t.closing (.text data) = [.failed .notUTF8] := by
          rw [StreamEvent.effects, hdecoded]
        exact h.handles_fail heffects (fun _ => rfl) hshort
    · rw [show fromUTF8 data = none from if_neg hshort]
      exact ⟨fun htaken => absurd htaken.1 hshort, fun _ => .of_crashed rfl⟩

/-- The data of a finished message is given to the client. -/
theorem IsReading.deliver (h : IsReading t none)
    (hopCode : opCode = opCodeText ∨ opCode = opCodeBinary) (data : Bytes) :
    Handles socket t
      (if opCode = opCodeText then t.deliverText data else t.effect (.didReceiveBinaryData data))
      (finishMessage (opCode, data)).1 (finishMessage (opCode, data)).2 := by
  rcases hopCode with rfl | rfl
  · exact h.deliverText data
  · rw [if_neg (by decide)]
    refine ⟨fun _ => ⟨⟨?_, rfl, h.crashed⟩, h.record _ _, rfl, rfl⟩, fun hnot => absurd ⟨trivial, trivial⟩ hnot⟩
    simp only [WebSocketChannel.observed, effect, filter_append]
    rfl

/-- One more frame of an unfinished message. -/
theorem IsReading.receiveContinuation (h : IsReading t (some m)) (frame : FrameData) :
    Handles socket t (t.receiveContinuation frame.final frame.payload)
      (if frame.final then (finishMessage (m.1, m.2 ++ frame.payload)).1 else [])
      (if frame.final then (finishMessage (m.1, m.2 ++ frame.payload)).2
        else some (some (m.1, m.2 ++ frame.payload))) := by
  obtain ⟨hkept, hopCode⟩ := h.kept m rfl
  subst hkept
  rw [WebSocketChannel.receiveContinuation]
  cases frame.final with
  | false =>
    have hread : IsReading { t with
        continuousFrameData := t.continuousFrameData ++ frame.payload }
        (some (t.continuousFrameOpCode, t.continuousFrameData ++ frame.payload)) :=
      { h with
        kept := fun m hm => Option.some.inj hm ▸ ⟨rfl, hopCode⟩
        noMessage := nofun }
    exact ⟨fun _ => ⟨⟨(append_nil _).symm, rfl, h.crashed⟩, hread, rfl, rfl⟩,
      fun hnot => absurd trivial hnot⟩
  | true =>
    have hfinished : IsReading { t with continuousFrameData := [], hasContinuousFrame := false }
        none :=
      { h with
        unfinished := rfl
        kept := nofun
        noMessage := fun _ => rfl }
    have hdeliver : Handles socket _ _ _ _ :=
      hfinished.deliver hopCode (t.continuousFrameData ++ frame.payload)
    dsimp only at hopCode hdeliver ⊢
    rcases hopCode with hop | hop
    · rw [if_pos hop] at hdeliver ⊢
      exact hdeliver.of_same rfl rfl rfl rfl rfl
    · rw [if_pos hop]
      exact hdeliver.of_same rfl rfl rfl rfl rfl

/-- A text or binary frame that begins a message. -/
theorem IsReading.receiveData (h : IsReading t none)
    (hopCode : frame.opCode = opCodeText ∨ frame.opCode = opCodeBinary) :
    Handles socket t (t.receiveData frame)
      (if frame.final then (finishMessage (frame.opCode, frame.payload)).1 else [])
      (if frame.final then (finishMessage (frame.opCode, frame.payload)).2
        else some (some (frame.opCode, frame.payload))) := by
  rw [WebSocketChannel.receiveData]
  cases frame.final with
  | true =>
    exact h.deliver hopCode frame.payload
  | false =>
    rw [if_neg Bool.false_ne_true]
    refine ⟨fun _ => ⟨⟨(append_nil _).symm, rfl, h.crashed⟩, { h with
      unfinished := rfl
      kept := ?_
      noMessage := by simp }, rfl, rfl⟩, fun hnot => absurd trivial hnot⟩
    intro m hm
    cases hm
    refine ⟨Prod.ext rfl ?_, hopCode⟩
    rw [h.noMessage rfl, nil_append]

/-- Nothing is observed of a socket that closes after the queue was closed. -/
theorem didCloseSocketStream_closed (h : t.outgoingFrameQueueStatus = outgoingFrameQueueClosed) :
    t.didCloseSocketStream.observed = t.observed ∧
      t.didCloseSocketStream.closeEventCode = t.closeEventCode ∧
      t.didCloseSocketStream.closeEventReason = t.closeEventReason ∧
      t.didCloseSocketStream.crashed = t.crashed ∧
      t.didCloseSocketStream.receivedClosingHandshake = t.receivedClosingHandshake := by
  have hclosed : t.setClosed = { t with closed := true } := if_neg (not_not_intro h)
  rw [didCloseSocketStream, hclosed]
  split
  · refine ⟨?_, rfl, rfl, rfl, rfl⟩
    rw [WebSocketChannel.observed, effectIf]
    dsimp only
    split
    · rw [filter_append]
      exact append_nil _
    · rfl
  · exact ⟨rfl, rfl, rfl, rfl, rfl⟩

/-- The empty queue is closed, and the handle with it. -/
theorem processOutgoingFrameQueue_closing (socket : SocketStreamHandle)
    (hqueue : t.outgoingFrameQueue = []) :
    (t.handle = false → (processOutgoingFrameQueue socket
      (t.setQueueStatus outgoingFrameQueueClosing)).crashed = true) ∧
    (t.handle = true → ∃ r, processOutgoingFrameQueue socket
        (t.setQueueStatus outgoingFrameQueueClosing) = r ∧
      r.observed = t.observed ∧ r.closeEventCode = t.closeEventCode ∧
      r.closeEventReason = t.closeEventReason ∧ r.crashed = t.crashed ∧
      r.receivedClosingHandshake = t.receivedClosingHandshake) := by
  have hfinish : processOutgoingFrameQueue socket (t.setQueueStatus outgoingFrameQueueClosing) =
      finishOutgoingFrameQueue socket (t.setQueueStatus outgoingFrameQueueClosing) := by
    rw [processOutgoingFrameQueue, if_neg (show ¬(t.setQueueStatus outgoingFrameQueueClosing
      ).outgoingFrameQueueStatus = outgoingFrameQueueClosed by
        change ¬outgoingFrameQueueClosing = outgoingFrameQueueClosed
        decide), sendQueuedFrames,
      show (t.setQueueStatus outgoingFrameQueueClosing).outgoingFrameQueue = [] from hqueue]
  rw [hfinish, finishOutgoingFrameQueue,
    if_pos (show (t.setQueueStatus outgoingFrameQueueClosing).outgoingFrameQueueStatus =
      outgoingFrameQueueClosing from rfl)]
  constructor
  · intro hhandle
    rw [if_neg (show ¬((t.setQueueStatus outgoingFrameQueueClosing).setQueueStatus
      outgoingFrameQueueClosed).handle = true by
        change ¬t.handle = true
        rw [hhandle]
        decide)]
    rfl
  · intro hhandle
    rw [if_pos (show ((t.setQueueStatus outgoingFrameQueueClosing).setQueueStatus
      outgoingFrameQueueClosed).handle = true from hhandle)]
    -- the status and the handle are not observed
    have hunseen : (((t.setQueueStatus outgoingFrameQueueClosing).setQueueStatus
        outgoingFrameQueueClosed).effect .closedHandle).observed = t.observed := by
      simp only [WebSocketChannel.observed, setQueueStatus, effect, filter_append, append_assoc]
      exact append_nil _
    split
    · obtain ⟨hobserved, hcode, hreason, hcrashed, hreceived⟩ := didCloseSocketStream_closed
        (t := ((t.setQueueStatus outgoingFrameQueueClosing).setQueueStatus
          outgoingFrameQueueClosed).effect .closedHandle) rfl
      exact ⟨_, rfl, hobserved.trans hunseen, hcode, hreason, hcrashed, hreceived⟩
    · exact ⟨_, rfl, hunseen, rfl, rfl, rfl, rfl⟩

/-- The channel that closes its handle has handled the Close frame: with the reply sent, or if it had
begun to close. -/
theorem handles_closing {replied : WebSocketChannel} {payload : Bytes}
    (htaken : IsTaken socket t.closing t.sends (.close payload))
    (hqueue : replied.outgoingFrameQueue = []) (hhandle : replied.handle = true)
    (hreads : Reads t replied [.close payload])
    (hstop : replied.receivedClosingHandshake = true) :
    Handles socket t (processOutgoingFrameQueue socket
      (replied.setQueueStatus outgoingFrameQueueClosing)) [.close payload] none := by
  obtain ⟨r, hr, hobserved, hcode, hreason, hcrashed, hreceived⟩ :=
    (processOutgoingFrameQueue_closing socket hqueue).2 hhandle
  rw [hr]
  refine ⟨fun _ => ⟨⟨?_, ?_, ?_⟩, ?_⟩, fun hnot => absurd ⟨htaken, trivial⟩ hnot⟩
  · exact hobserved.trans hreads.observed
  · rw [hcode, hreason]
    exact hreads.closeEvent
  · exact hcrashed.trans hreads.crashed
  · change r.stops = true
    rw [WebSocketChannel.stops, hreceived, hstop, Bool.or_true, Bool.true_or]

/-- After a Close frame the reading ends, if the reply was sent or the channel had begun to close;
otherwise the channel closes a handle that it has not. -/
theorem IsReading.receiveClose (h : IsReading t message) (payload : Bytes) : Handles socket t
      (t.receiveClose socket (receivedCloseCode payload) (receivedCloseReason payload))
      [.close payload] none := by
  obtain ⟨received, hreceived⟩ : ∃ received, received = effect { t with
      closeEventCode := receivedCloseCode payload
      closeEventReason := receivedCloseReason payload
      receivedClosingHandshake := true }
    (.receivedClose (receivedCloseCode payload) (receivedCloseReason payload)) := ⟨_, rfl⟩
  have hobserved : received.observed = t.observed ++
      [.receivedClose (receivedCloseCode payload) (receivedCloseReason payload)] := by
    rw [hreceived]
    simp only [WebSocketChannel.observed, effect, filter_append]
    rfl
  have hsending : IsSending received := by
    rw [hreceived]
    exact { h with }
  have hclosing : received.closing = t.closing := by rw [hreceived]; rfl
  have hsends : received.sends = t.sends := by rw [hreceived]; rfl
  have hcode : (received.closeEventCode, received.closeEventReason) =
      (receivedCloseCode payload, receivedCloseReason payload) := by rw [hreceived]; rfl
  have hcrashed : received.crashed = false := by rw [hreceived]; exact h.crashed
  have hstop : received.receivedClosingHandshake = true := by rw [hreceived]; rfl
  have hpayload : received.closePayload (receivedCloseCode payload)
      (receivedCloseReason payload) = [] := by
    rw [closePayload, hstop]
    rfl
  rw [WebSocketChannel.receiveClose, ← hreceived, WebSocketChannel.startClosingHandshake]
  cases hstarted : t.closing with
  | true =>
    have hstarted' : received.closing = true := hclosing.trans hstarted
    rw [if_pos hstarted', if_pos hstarted']
    refine handles_closing (.inl hstarted) hsending.queue hsending.handle ⟨?_, hcode, hcrashed⟩
      hstop
    rw [hobserved, hstarted]
    rfl
  | false =>
    have hstarted' : ¬received.closing = true := by
      rw [hclosing, hstarted]
      exact Bool.false_ne_true
    have hif : ∀ started : WebSocketChannel, started.closing = true →
        (if started.closing = true then
          processOutgoingFrameQueue socket (started.setQueueStatus outgoingFrameQueueClosing)
        else started) =
          processOutgoingFrameQueue socket (started.setQueueStatus outgoingFrameQueueClosing) :=
      fun _ hclosing => if_pos hclosing
    rw [if_neg hstarted', hpayload, hsending.enqueueFrame, hsends, hif _ rfl]
    by_cases haccepts : socket.result t.sends = .taken
    · -- the reply is in the log, and the queue is empty again
      rw [haccepts, giveToSocket_taken isShort_nil]
      refine handles_closing (.inr haccepts) hsending.queue hsending.handle ⟨?_, hcode, hcrashed⟩
        hstop
      rw [hstarted]
      simp only [WebSocketChannel.observed, effect, effectIf, hsending.client, if_true,
        filter_append, append_assoc] at hobserved ⊢
      rw [hobserved, append_assoc]
      rfl
    · have hfailing : IsSending ({ received with sends := t.sends + 1 }.effect
          (.enqueued (.vector opCodeClose []))) :=
        { hsending with }
      obtain ⟨hhandle, hqueue, -⟩ := hfailing.giveToSocket haccepts
        (frameBytes opCodeClose (socket.maskingKey t.sends) [])
      refine ⟨fun hnot => ?_, fun _ => .of_crashed ?_⟩
      · obtain hclosing | htaken := hnot.1
        · exact absurd (hstarted.symm.trans hclosing) Bool.false_ne_true
        · exact absurd htaken haccepts
      · exact (processOutgoingFrameQueue_closing socket (by exact hqueue)).1 (by exact hhandle)

/-- What a frame does. -/
theorem IsReading.receiveFrame (socket : SocketStreamHandle) (h : IsReading t message)
    (frame : FrameData) :
    Handles socket t (t.receiveFrame socket frame) (readFrameEvents message frame).1
      (readFrameEvents message frame).2 := by
  have hvalidate : t.validateFrame frame = frameFailure message.isSome frame := by
    rw [validateFrame, h.unfinished]
  rw [WebSocketChannel.receiveFrame, readFrameEvents, hvalidate]
  cases hfailure : frameFailure message.isSome frame with
  | some failure => exact h.handles_fail rfl (fun _ => rfl) trivial
  | none =>
    rcases frameFailure_none hfailure with ⟨hop, hsome⟩ | ⟨hop, hnone⟩ | hop | hop | hop
    · obtain ⟨m, rfl⟩ := Option.isSome_iff_exists.mp hsome
      rw [if_pos hop, if_neg (by rw [hop]; decide), if_neg (by rw [hop]; decide),
        if_neg (by rw [hop]; decide)]
      have hframe : Handles socket _ _ _ _ := h.receiveContinuation frame
      cases hfinal : frame.final <;> rw [hfinal] at hframe <;> exact hframe
    · obtain rfl := Option.not_isSome_iff_eq_none.mp (by rw [hnone]; decide)
      have hcontinuation : ¬frame.opCode = opCodeContinuation := by
        rcases hop with hop | hop <;> rw [hop] <;> decide
      have hcontrol : ¬frame.opCode = opCodeClose ∧ ¬frame.opCode = opCodePing ∧
          ¬frame.opCode = opCodePong := by
        rcases hop with hop | hop <;> rw [hop] <;> decide
      rw [if_neg hcontinuation, if_pos hop, if_neg hcontrol.1, if_neg hcontrol.2.1,
        if_neg hcontrol.2.2]
      have hframe : Handles socket _ _ _ _ := h.receiveData hop
      cases hfinal : frame.final <;> rw [hfinal] at hframe <;> exact hframe
    · rw [if_neg (by rw [hop]; decide), if_neg (by rw [hop]; decide), if_pos hop, if_pos hop]
      exact h.receiveClose frame.payload
    · rw [if_neg (by rw [hop]; decide), if_neg (by rw [hop]; decide),
        if_neg (by rw [hop]; decide), if_pos hop, if_neg (by rw [hop]; decide), if_pos hop]
      exact h.receivePing (isShort_of_valid hfailure (by rw [hop]; rfl))
    · rw [if_neg (by rw [hop]; decide), if_neg (by rw [hop]; decide),
        if_neg (by rw [hop]; decide), if_neg (by rw [hop]; decide),
        if_neg (by rw [hop]; decide), if_neg (by rw [hop]; decide), if_pos hop]
      exact ⟨fun _ => ⟨⟨(append_nil _).symm, rfl, h.crashed⟩, h, rfl, rfl⟩,
        fun hnot => absurd trivial hnot⟩

/-! ## The whole stream -/

theorem undisturbed_append (closing : Bool) : ∀ (events more : List StreamEvent) (sends : ℕ),
    Undisturbed socket closing sends (events ++ more) ↔ Undisturbed socket closing sends events ∧
        Undisturbed socket closing (sends + (events.map (replies closing)).sum) more
  | [], more, sends => (iff_of_eq (true_and _)).symm
  | event :: events, more, sends => by
    have ih := undisturbed_append closing events more (sends + replies closing event)
    rw [cons_append, Undisturbed, Undisturbed, ih, and_assoc, map_cons, sum_cons, Nat.add_assoc]

theorem Reads.trans
    (h : Reads t r events) (hclosing : r.closing = t.closing) (h' : Reads r r' more) :
    Reads t r' (events ++ more) := by
  constructor
  · rw [h'.observed, h.observed, hclosing, map_append, flatten_append, append_assoc]
  · rw [h'.closeEvent, h.closeEvent, foldl_append]
  · exact h'.crashed

/-- What a stream does: by induction on its frames. -/
theorem IsReading.readStream (socket : SocketStreamHandle) (h : IsReading t message)
    (stream : Bytes) :
    let events := readMessages message (readFrames stream).1 (readFrames stream).2
    (Undisturbed socket t.closing t.sends events → Reads t (t.readStream socket stream).1 events) ∧
      (¬Undisturbed socket t.closing t.sends events →
        Disturbed t (t.readStream socket stream).1) := by
  induction hn : stream.length using Nat.strong_induction_on generalizing t message stream with
  | _ n ih =>
    subst hn
    cases hparse : parseFrame stream with
    | frameIncomplete =>
      rw [readStream_incomplete socket hparse, readFrames_incomplete hparse]
      exact ⟨fun _ => ⟨(append_nil _).symm, rfl, h.crashed⟩, fun hnot => absurd trivial hnot⟩
    | frameError payloadLength =>
      rw [readStream_error socket hparse, readFrames_error hparse]
      exact ⟨fun _ => h.reads_fail rfl fun _ => rfl, fun hnot => absurd ⟨trivial, trivial⟩ hnot⟩
    | frameOK frame =>
      obtain ⟨h2, hle, -⟩ := parseFrame_frameEnd hparse
      have hshorter : (stream.drop frame.frameEnd).length < stream.length := by
        rw [length_drop]
        omega
      obtain ⟨hreads, hdisturbed⟩ := h.receiveFrame socket frame
      rw [readStream_frame socket hparse, readFrames_frame hparse]
      dsimp only
      rw [readMessages, undisturbed_append]
      generalize (readFrameEvents message frame).1 = events at hreads hdisturbed ⊢
      generalize (readFrameEvents message frame).2 = next at hreads hdisturbed ⊢
      generalize t.receiveFrame socket frame = r at hreads hdisturbed ⊢
      by_cases htaken : Undisturbed socket t.closing t.sends events
      · obtain ⟨hread, hcontinues⟩ := hreads htaken
        cases next with
        | none =>
          have hstops : r.stops = true := hcontinues
          rw [if_pos hstops, append_nil]
          exact ⟨fun _ => hread, fun hnot => absurd ⟨htaken, trivial⟩ hnot⟩
        | some next =>
          obtain ⟨hnext, hclosing, hsends⟩ := hcontinues
          rw [if_neg (by rw [hnext.stops]; exact Bool.false_ne_true)]
          obtain ⟨hrest, hrestDisturbed⟩ := ih _ hshorter hnext _ rfl
          rw [hclosing, hsends] at hrest hrestDisturbed
          refine ⟨fun hall => hread.trans hclosing (hrest hall.2),
            fun hnot => hread.disturbed (hrestDisturbed ?_)⟩
          exact fun hall => hnot ⟨htaken, hall⟩
      · have herror := hdisturbed htaken
        rw [if_pos herror.stops]
        exact ⟨fun hall => absurd hall.1 htaken, fun _ => herror⟩

/-- However the stream is cut, the channel does what the stream says. -/
def ReadsStream (socket : SocketStreamHandle) (s : WebSocketChannel) (stream : Bytes) : Prop :=
  ∀ chunks : List Bytes, (∀ data ∈ chunks, data ≠ []) → chunks.flatten = stream →
    Reads s (receiveAll socket s chunks) (readStreamEvents stream)

/-- A channel does what the stream says exactly when nothing disturbs it. -/
theorem readsStream_iff {s : WebSocketChannel} (h : IsReading s none) (hbuffer : s.buffer = [])
    (stream : Bytes) :
    ReadsStream socket s stream ↔
      Undisturbed socket s.closing s.sends (readStreamEvents stream) := by
  have hempty : s.withBuffer [] = s := by
    rw [withBuffer, ite_self, ← hbuffer]
  have hcut : ∀ chunks : List Bytes, (∀ data ∈ chunks, data ≠ []) → chunks.flatten = stream →
      (receiveAll socket s chunks).withBuffer [] =
        (s.readStream socket stream).1.withBuffer [] := by
    intro chunks hchunks hflatten
    have hall := receiveAll_eq socket chunks [] h.isAttached h.stops
      (readStream_incomplete socket rfl s) hchunks
    rw [hempty, hflatten] at hall
    exact hall
  obtain ⟨hreads, hdisturbed⟩ := h.readStream socket stream
  constructor
  · intro hstream
    by_contra hnot
    have hbytes : (stream.map fun b => [b]).flatten = stream := by
      rw [← flatMap_def, flatMap_singleton']
    have hsingle : ∀ data ∈ stream.map fun b => [b], data ≠ [] := by
      intro data hdata
      obtain ⟨b, -, rfl⟩ := mem_map.mp hdata
      exact cons_ne_nil b []
    have hcrashed := congrArg crashed (hcut _ hsingle hbytes)
    have hobserved := congrArg observed (hcut _ hsingle hbytes)
    have hread := hstream _ hsingle hbytes
    rcases (hdisturbed hnot).error with hcrash | ⟨more, hmore, herror⟩
    · exact Bool.false_ne_true (hread.crashed.symm.trans (hcrashed.trans hcrash))
    · have hsame := hread.observed.symm.trans (hobserved.trans hmore)
      rw [← append_cancel_left hsame] at herror
      exact networkError_not_mem _ _ herror
  · intro htaken chunks hchunks hflatten
    have hread := hreads htaken
    have hsame := hcut chunks hchunks hflatten
    constructor
    · exact (congrArg observed hsame).trans hread.observed
    · have hcode := congrArg (fun r => (closeEventCode r, closeEventReason r)) hsame
      exact hcode.trans hread.closeEvent
    · exact (congrArg crashed hsame).trans hread.crashed

theorem isReading_connected : IsReading connected none :=
  ⟨⟨rfl, rfl, rfl, rfl, rfl, rfl, rfl, by decide⟩, rfl, rfl, rfl, rfl, rfl,
    fun m hnone => (by cases hnone), fun _ => rfl⟩

/-- A socket that takes nothing. -/
def refusingSocket : SocketStreamHandle := ⟨fun _ => .refused, fun _ => Vector.replicate 4 0, true⟩

/-- A text message needs no reply. -/
theorem readsStream_iff_text : ReadsStream refusingSocket connected [0x81, 1, 97] ↔
      Undisturbed refusingSocket false 0 (readStreamEvents [0x81, 1, 97]) :=
  readsStream_iff isReading_connected rfl _

/-- A Ping whose Pong the socket does not take. -/
theorem not_readsStream_ping : ¬ReadsStream refusingSocket connected [0x89, 0] := by
  intro hstream
  have hread := (hstream [[0x89, 0]] (by decide) rfl).crashed
  cases hread

end WebSocketChannel

end WebSockets
end WebKit
