import WebKit.WebSockets.FrameParsing

/-!
# The received bytes, however they are cut

No operation of the channel looks at the bytes that are left in the buffer, except that failing
throws them away (`Blind`).  So what a channel does with received bytes is what it does with all of
them at once: `readStream` goes through the stream frame by frame, and
`receiveAll_eq` says that any chunks lead to the same channel, up to bytes that nobody will read.
-/

namespace WebKit

open List
namespace WebSockets

open WTF (UString fromUTF8 utf8)
open OutgoingFrameQueueStatus BlobLoaderStatus

namespace WebSocketChannel

/-! ## Operations that do not look at the buffer -/

/-- The channel with other bytes in its buffer, or none when that was freed. -/
def withBuffer (buffer : Bytes) (t : WebSocketChannel) : WebSocketChannel :=
  { t with buffer := if t.freed then [] else buffer }

/-- The channel is not suspended, it leaves its document with its client, and it receives nothing
once its buffer was freed. -/
def IsAttached (t : WebSocketChannel) : Prop :=
  t.suspended = false ∧ t.document = t.client ∧ (t.freed = true → t.shouldDiscardReceivedData = true)

theorem IsAttached.not_freed {t : WebSocketChannel} (h : IsAttached t)
    (hdiscard : t.shouldDiscardReceivedData = false) : t.freed = false := by
  by_contra hfreed
  rw [h.2.2 (Bool.not_eq_false _ ▸ hfreed)] at hdiscard
  cases hdiscard

theorem buffer_withBuffer {t : WebSocketChannel} (h : t.freed = false) (buffer : Bytes) :
    (t.withBuffer buffer).buffer = buffer :=
  if_neg (by rw [h]; exact Bool.false_ne_true)

structure Blind (op : WebSocketChannel → WebSocketChannel) : Prop where
  commutes : ∀ buffer t, op (t.withBuffer buffer) = (op t).withBuffer buffer
  attached : ∀ {t}, IsAttached t → IsAttached (op t)

theorem Blind.id : Blind fun t => t := ⟨fun _ _ => rfl, fun h => h⟩

variable {op : WebSocketChannel → WebSocketChannel}

theorem Blind.comp (h : Blind op) (h' : Blind op') :
    Blind fun t => op' (op t) := by
  constructor
  · intro buffer t
    rw [h.commutes, h'.commutes]
  · exact fun ht => h'.attached (h.attached ht)

theorem Blind.ite (c : WebSocketChannel → Prop)
    [DecidablePred c] (hc : ∀ buffer t, c (t.withBuffer buffer) ↔ c t) (h : Blind op)
    (h' : Blind op') : Blind fun t => if c t then op t else op' t := by
  constructor
  · intro buffer t
    by_cases ht : c t
    · rw [if_pos ht, if_pos ((hc buffer t).mpr ht), h.commutes]
    · rw [if_neg ht, if_neg (fun h => ht ((hc buffer t).mp h)), h'.commutes]
  · intro t ht
    split
    · exact h.attached ht
    · exact h'.attached ht

/-- An operation that is blind for each queue and each state of the loader. -/
theorem Blind.of_queue (h : ∀ queue loader loaderStatus, ∃ op', Blind op' ∧ ∀ u : WebSocketChannel,
      u.outgoingFrameQueue = queue → u.blobLoader = loader → u.blobLoaderStatus = loaderStatus →
        op u = op' u) : Blind op := by
  constructor
  · intro buffer t
    obtain ⟨op', hblind, heq⟩ := h t.outgoingFrameQueue t.blobLoader t.blobLoaderStatus
    rw [heq (t.withBuffer buffer) rfl rfl rfl, heq t rfl rfl rfl, hblind.commutes]
  · intro t ht
    obtain ⟨op', hblind, heq⟩ := h t.outgoingFrameQueue t.blobLoader t.blobLoaderStatus
    rw [heq t rfl rfl rfl]
    exact hblind.attached ht

theorem blind_effect (e : Effect) : Blind fun t => t.effect e := ⟨fun _ _ => rfl, fun h => h⟩

theorem blind_crash : Blind crash := ⟨fun _ _ => rfl, fun h => h⟩

theorem blind_setQueueStatus (status : OutgoingFrameQueueStatus) :
    Blind fun t => t.setQueueStatus status := ⟨fun _ _ => rfl, fun h => h⟩

theorem blind_discardReceivedData (failure : Failure) :
    Blind fun t => t.discardReceivedData failure :=
  ⟨fun _ _ => rfl, fun h => ⟨h.1, h.2.1, fun _ => rfl⟩⟩

theorem blind_abortOutgoingFrameQueue : Blind abortOutgoingFrameQueue := by
  refine Blind.ite (fun t => t.blobLoaderStatus = blobLoaderStarted) (fun _ _ => Iff.rfl) ?_ ?_
  · exact ⟨fun _ _ => rfl, fun h => ⟨h.1, h.2.1, fun _ => rfl⟩⟩
  · exact ⟨fun _ _ => rfl, fun h => h⟩

theorem blind_setClosed : Blind setClosed := by
  have hclosed : Blind fun t => { t with closed := true } := ⟨fun _ _ => rfl, fun h => h⟩
  exact hclosed.comp (Blind.ite
    (fun t => t.outgoingFrameQueueStatus ≠ outgoingFrameQueueClosed) (fun _ _ => Iff.rfl)
    blind_abortOutgoingFrameQueue Blind.id)

theorem blind_didCloseSocketStream : Blind didCloseSocketStream := by
  have hleave : Blind fun t =>
      { t with client := false, document := false, handle := false }.effectIf t.client
        (.didClose t.receivedClosingHandshake t.closeEventCode t.closeEventReason) :=
    ⟨fun _ _ => rfl, fun h => ⟨h.1, rfl, h.2.2⟩⟩
  exact blind_setClosed.comp (Blind.ite (fun t => (t.handle && !t.suspended) = true)
    (fun _ _ => Iff.rfl) hleave Blind.id)

theorem blind_fail (failure : Failure) : Blind fun t => t.fail failure := by
  have h : Blind fun t => if (t.handle && !t.closed) = true then
      (t.discardReceivedData failure).didCloseSocketStream else t.discardReceivedData failure :=
    Blind.ite (fun t => (t.handle && !t.closed) = true) (fun _ _ => Iff.rfl)
      ((blind_discardReceivedData failure).comp blind_didCloseSocketStream)
      (blind_discardReceivedData failure)
  exact h

theorem blind_didFailSocketStream : Blind didFailSocketStream := by
  have hreported : Blind fun t =>
      { t.effectIf t.document .networkError with shouldDiscardReceivedData := true } :=
    ⟨fun _ _ => rfl, fun h => ⟨h.1, h.2.1, fun _ => rfl⟩⟩
  exact hreported.comp blind_didCloseSocketStream

theorem blind_giveToSocket (bytes : Bytes) (result : SendResult) :
    Blind fun t => t.giveToSocket bytes result := by
  cases result with
  | taken =>
    have htaken : Blind fun t : WebSocketChannel => if sendLength bytes < 0 then t.crash
        else t.effect (.sent (bytes.take (sendLength bytes).toNat)) :=
      Blind.ite (fun _ => sendLength bytes < 0) (fun _ _ => Iff.rfl) blind_crash (blind_effect _)
    exact htaken
  | refused => exact blind_fail .sendFailed
  | failed returned =>
    exact Blind.ite (fun _ => returned = true) (fun _ _ => Iff.rfl) blind_didFailSocketStream
      (blind_didFailSocketStream.comp (blind_fail .sendFailed))

section Socket

variable (socket : SocketStreamHandle)

theorem blind_sendFrame (opCode : OpCode) (data : Bytes) :
    Blind fun t => t.sendFrame socket opCode data := by
  refine Blind.ite (fun t => t.handle = true) (fun _ _ => Iff.rfl) ?_ blind_crash
  -- the masking key and the result are those of the send, whatever the buffer
  have hgiven : ∀ bytes result, Blind fun t =>
      giveToSocket { t with sends := t.sends + 1 } bytes result := by
    intro bytes result
    have htried : Blind fun t => { t with sends := t.sends + 1 } := ⟨fun _ _ => rfl, fun h => h⟩
    exact htried.comp (blind_giveToSocket bytes result)
  constructor
  · exact fun buffer t => (hgiven _ _).commutes buffer t
  · exact fun ht => (hgiven _ _).attached ht

theorem blind_finishOutgoingFrameQueue : Blind fun t => t.finishOutgoingFrameQueue socket := by
  refine Blind.ite (fun t => t.outgoingFrameQueueStatus = outgoingFrameQueueClosing)
    (fun _ _ => Iff.rfl) ?_ Blind.id
  have hclose : Blind fun t => if socket.closesAtOnce = true then
      (t.effect .closedHandle).didCloseSocketStream else t.effect .closedHandle :=
    (blind_effect .closedHandle).comp (Blind.ite (fun _ => socket.closesAtOnce = true)
      (fun _ _ => Iff.rfl) blind_didCloseSocketStream Blind.id)
  exact (blind_setQueueStatus outgoingFrameQueueClosed).comp (Blind.ite
    (fun t => t.handle = true) (fun _ _ => Iff.rfl) hclose blind_crash)

theorem blind_sendQueuedFrames : ∀ fuel : ℕ, Blind fun t => sendQueuedFrames socket fuel t
  | 0 => Blind.id
  | fuel + 1 => by
    have ih := blind_sendQueuedFrames fuel
    have hfinish := blind_finishOutgoingFrameQueue socket
    -- a frame is taken from the queue and sent
    have hsend : ∀ rest loader loaderStatus opCode data, Blind fun t =>
        sendQueuedFrames socket fuel (sendFrame socket { t with
          outgoingFrameQueue := rest
          blobLoader := loader
          blobLoaderStatus := loaderStatus } opCode data) := by
      intro rest loader loaderStatus opCode data
      have htaken : Blind fun t => { t with
          outgoingFrameQueue := rest
          blobLoader := loader
          blobLoaderStatus := loaderStatus } := ⟨fun _ _ => rfl, fun h => h⟩
      exact (htaken.comp (blind_sendFrame socket opCode data)).comp ih
    refine Blind.of_queue fun queue loader loaderStatus => ?_
    cases queue with
    | nil =>
      refine ⟨_, hfinish, fun u hqueue _ _ => ?_⟩
      rw [sendQueuedFrames, hqueue]
    | cons frame rest =>
      cases frame with
      | string opCode data =>
        refine ⟨_, hsend rest loader loaderStatus opCode (utf8 data),
          fun u hqueue hloader hstatus => ?_⟩
        rw [sendQueuedFrames, hqueue, ← hloader, ← hstatus]
      | vector opCode data =>
        refine ⟨_, hsend rest loader loaderStatus opCode data, fun u hqueue hloader hstatus => ?_⟩
        rw [sendQueuedFrames, hqueue, ← hloader, ← hstatus]
      | blob opCode blob =>
        cases loaderStatus with
        | blobLoaderNotStarted =>
          have hstart : Blind fun t =>
              { t with
                outgoingFrameQueue := .blob opCode blob :: rest
                blobLoader := some ⟨blob, []⟩
                blobLoaderStatus := blobLoaderStarted }.effect (.startedLoading blob) :=
            ⟨fun _ _ => rfl, fun h => h⟩
          refine ⟨_, hstart, fun u hqueue _ hstatus => ?_⟩
          rw [sendQueuedFrames, hqueue]
          rw [hstatus]
        | blobLoaderStarted | blobLoaderFailed =>
          refine ⟨_, Blind.id, fun u hqueue _ hstatus => ?_⟩
          rw [sendQueuedFrames, hqueue]
          rw [hstatus]
        | blobLoaderFinished =>
          cases loader with
          | none =>
            refine ⟨_, blind_crash, fun u hqueue hloader hstatus => ?_⟩
            rw [sendQueuedFrames, hqueue]
            rw [hstatus, hloader]
          | some loader =>
            refine ⟨_, hsend rest none blobLoaderNotStarted opCode loader.arrayBufferResult,
              fun u hqueue hloader hstatus => ?_⟩
            rw [sendQueuedFrames, hqueue]
            rw [hstatus, hloader]

theorem blind_processOutgoingFrameQueue : Blind fun t => t.processOutgoingFrameQueue socket := by
  refine Blind.of_queue fun queue loader loaderStatus => ?_
  refine ⟨_, Blind.ite (fun t => t.outgoingFrameQueueStatus = outgoingFrameQueueClosed)
    (fun _ _ => Iff.rfl) Blind.id (blind_sendQueuedFrames socket (queue.length + 1)),
    fun u hqueue _ _ => ?_⟩
  rw [processOutgoingFrameQueue, hqueue]

theorem blind_enqueueFrame (frame : QueuedFrame) : Blind fun t => t.enqueueFrame socket frame := by
  have henqueued : Blind fun t => { t with
      outgoingFrameQueue := t.outgoingFrameQueue ++ [frame] }.effect (.enqueued frame) :=
    ⟨fun _ _ => rfl, fun h => h⟩
  exact henqueued.comp (blind_processOutgoingFrameQueue socket)

/-! ## Received frames -/

theorem blind_deliverText (data : Bytes) : Blind fun t => t.deliverText data := by
  refine Blind.ite (fun _ => data = []) (fun _ _ => Iff.rfl) (blind_effect _) ?_
  cases fromUTF8 data with
  | none => exact blind_crash
  | some message =>
    cases message with
    | none => exact blind_fail .notUTF8
    | some message => exact blind_effect _

theorem blind_startClosingHandshake (code : ℤ) (reason : Option UString) :
    Blind fun t => t.startClosingHandshake socket code reason := by
  have hstart : ∀ payload, Blind fun t =>
      { t.enqueueRawFrame socket opCodeClose payload with closing := true }.effectIf
        (t.enqueueRawFrame socket opCodeClose payload).client .didStartClosingHandshake := by
    intro payload
    have hclosing : Blind fun t => { t with closing := true }.effectIf t.client
        .didStartClosingHandshake := ⟨fun _ _ => rfl, fun h => h⟩
    exact (blind_enqueueFrame socket (.vector opCodeClose payload)).comp hclosing
  -- the payload does not depend on the buffer
  have hpayload : ∀ payload, Blind fun t =>
      if t.closing = true then t else
        { t.enqueueRawFrame socket opCodeClose payload with closing := true }.effectIf
          (t.enqueueRawFrame socket opCodeClose payload).client .didStartClosingHandshake :=
    fun payload => Blind.ite (fun t => t.closing = true) (fun _ _ => Iff.rfl) Blind.id
      (hstart payload)
  constructor
  · intro buffer t
    exact (hpayload (t.closePayload code reason)).commutes buffer t
  · intro t ht
    exact (hpayload (t.closePayload code reason)).attached ht

variable (t : WebSocketChannel)

/-- What a Close frame does after it was skipped. -/
def receiveClose (code : ℕ) (reason : Option UString) : WebSocketChannel :=
  let received := { t with
    closeEventCode := code
    closeEventReason := reason
    receivedClosingHandshake := true }.effect (.receivedClose code reason)
  let started := received.startClosingHandshake socket code reason
  if started.closing then
    processOutgoingFrameQueue socket (started.setQueueStatus outgoingFrameQueueClosing)
  else started

theorem blind_receiveClose (code : ℕ) (reason : Option UString) :
    Blind fun t => t.receiveClose socket code reason := by
  have hreceived : Blind fun t => { t with
      closeEventCode := code
      closeEventReason := reason
      receivedClosingHandshake := true }.effect (.receivedClose code reason) :=
    ⟨fun _ _ => rfl, fun h => h⟩
  have hclosing : Blind fun t => processOutgoingFrameQueue socket
      (t.setQueueStatus outgoingFrameQueueClosing) :=
    (blind_setQueueStatus _).comp (blind_processOutgoingFrameQueue socket)
  exact (hreceived.comp (blind_startClosingHandshake socket code reason)).comp
    (Blind.ite (fun t => t.closing = true) (fun _ _ => Iff.rfl) hclosing Blind.id)

/-- The data of a message after one more frame of it. -/
def receiveContinuation (final : Bool) (payload : Bytes) : WebSocketChannel :=
  if final then
    let finished := { t with continuousFrameData := [], hasContinuousFrame := false }
    if t.continuousFrameOpCode = opCodeText then
      finished.deliverText (t.continuousFrameData ++ payload)
    else if t.continuousFrameOpCode = opCodeBinary then
      finished.effect (.didReceiveBinaryData (t.continuousFrameData ++ payload))
    else finished
  else { t with continuousFrameData := t.continuousFrameData ++ payload }

theorem blind_receiveContinuation (final : Bool) (payload : Bytes) :
    Blind fun t => t.receiveContinuation final payload := by
  have hfinished : Blind fun t =>
      { t with continuousFrameData := [], hasContinuousFrame := false } :=
    ⟨fun _ _ => rfl, fun h => h⟩
  -- the data is that of the channel, whatever its buffer
  have hdata : ∀ data, Blind fun t =>
      if t.continuousFrameOpCode = opCodeText then
        deliverText { t with continuousFrameData := [], hasContinuousFrame := false } data
      else if t.continuousFrameOpCode = opCodeBinary then
        effect { t with continuousFrameData := [], hasContinuousFrame := false }
          (.didReceiveBinaryData data)
      else { t with continuousFrameData := [], hasContinuousFrame := false } := fun data =>
    Blind.ite (fun t => t.continuousFrameOpCode = opCodeText) (fun _ _ => Iff.rfl)
      (hfinished.comp (blind_deliverText data))
      (Blind.ite (fun t => t.continuousFrameOpCode = opCodeBinary) (fun _ _ => Iff.rfl)
        (hfinished.comp (blind_effect _)) hfinished)
  cases final with
  | false => exact ⟨fun _ _ => rfl, fun h => h⟩
  | true =>
    constructor
    · intro buffer t
      exact (hdata (t.continuousFrameData ++ payload)).commutes buffer t
    · intro t ht
      exact (hdata (t.continuousFrameData ++ payload)).attached ht

/-- What a text or binary frame does after it was skipped. -/
def receiveData (frame : FrameData) : WebSocketChannel :=
  if frame.final then
    if frame.opCode = opCodeText then t.deliverText frame.payload
    else t.effect (.didReceiveBinaryData frame.payload)
  else
    { t with
      hasContinuousFrame := true
      continuousFrameOpCode := frame.opCode
      continuousFrameData := t.continuousFrameData ++ frame.payload }

theorem blind_receiveData (frame : FrameData) : Blind fun t => t.receiveData frame := by
  refine Blind.ite (fun _ => frame.final = true) (fun _ _ => Iff.rfl) ?_
    ⟨fun _ _ => rfl, fun h => h⟩
  exact Blind.ite (fun _ => frame.opCode = opCodeText) (fun _ _ => Iff.rfl)
    (blind_deliverText frame.payload) (blind_effect _)

/-- What a Ping frame does; it is skipped only then, which goes wrong if failing has thrown the
buffer away. -/
def receivePing (payload : Bytes) : WebSocketChannel :=
  let replied := t.enqueueRawFrame socket opCodePong payload
  if replied.freed then replied.crash else replied

theorem blind_receivePing (payload : Bytes) : Blind fun t => t.receivePing socket payload :=
  (blind_enqueueFrame socket (.vector opCodePong payload)).comp
    (Blind.ite (fun t => t.freed = true) (fun _ _ => Iff.rfl) blind_crash
      Blind.id)

/-- What a frame does to a channel, its bytes aside. -/
def receiveFrame (frame : FrameData) : WebSocketChannel :=
  match t.validateFrame frame with
  | some failure => t.fail failure
  | none =>
    if frame.opCode = opCodeContinuation then t.receiveContinuation frame.final frame.payload
    else if frame.opCode = opCodeText ∨ frame.opCode = opCodeBinary then t.receiveData frame
    else if frame.opCode = opCodeClose then
      t.receiveClose socket (receivedCloseCode frame.payload) (receivedCloseReason frame.payload)
    else if frame.opCode = opCodePing then t.receivePing socket frame.payload
    else t

variable {t : WebSocketChannel} {buffer stream : Bytes} {frame : FrameData}

theorem IsAttached.receiveFrame (h : IsAttached t) (frame : FrameData) :
    IsAttached (t.receiveFrame socket frame) := by
  rw [WebSocketChannel.receiveFrame]
  split
  · exact (blind_fail _).attached h
  · split
    · exact (blind_receiveContinuation frame.final frame.payload).attached h
    · split
      · exact (blind_receiveData frame).attached h
      · split
        · exact (blind_receiveClose socket _ _).attached h
        · split
          · exact (blind_receivePing socket frame.payload).attached h
          · exact h

/-! ## One frame of the buffer -/

section

variable (ht : t.freed = false)
include ht

theorem skipFrame_withBuffer (hle : frame.frameEnd ≤ buffer.length) :
    (t.withBuffer buffer).skipFrame frame = t.withBuffer (buffer.drop frame.frameEnd) := by
  rw [skipFrame, buffer_withBuffer ht, if_neg (by omega), withBuffer, withBuffer]
  simp only [ht, Bool.false_eq_true, if_false]

theorem processContinuation_withBuffer (hle : frame.frameEnd ≤ buffer.length) :
    (t.withBuffer buffer).processContinuation frame =
      (t.withBuffer (buffer.drop frame.frameEnd)).receiveContinuation frame.final
        frame.payload := by
  have hskip : skipFrame { t.withBuffer buffer with
      continuousFrameData := (t.withBuffer buffer).continuousFrameData ++ frame.payload } frame =
        withBuffer (buffer.drop frame.frameEnd) { t with
          continuousFrameData := t.continuousFrameData ++ frame.payload } :=
    skipFrame_withBuffer (t := { t with
      continuousFrameData := t.continuousFrameData ++ frame.payload }) ht hle
  rw [processContinuation, hskip]
  cases frame.final <;> rfl

/-- Processing a frame does to the channel what the frame does, and skips its bytes. -/
theorem dispatchFrame_withBuffer
    (hvalid : t.validateFrame frame = none) (hle : frame.frameEnd ≤ buffer.length)
    (hpos : 0 < frame.frameEnd) :
    (t.withBuffer buffer).dispatchFrame socket frame =
      (t.receiveFrame socket frame).withBuffer (buffer.drop frame.frameEnd) := by
  have hskip := skipFrame_withBuffer ht hle
  have hstarted := skipFrame_withBuffer (t := { t with
    hasContinuousFrame := true
    continuousFrameOpCode := frame.opCode
    continuousFrameData := t.continuousFrameData ++ frame.payload }) ht hle
  rw [receiveFrame, hvalid, dispatchFrame]
  by_cases hcontinuation : frame.opCode = opCodeContinuation
  · rw [if_pos hcontinuation, if_pos hcontinuation, processContinuation_withBuffer ht hle]
    exact (blind_receiveContinuation frame.final frame.payload).commutes _ t
  · rw [if_neg hcontinuation, if_neg hcontinuation]
    by_cases htext : frame.opCode = opCodeText
    · rw [if_pos htext, if_pos (Or.inl htext), ← (blind_receiveData frame).commutes, processText,
        receiveData, hskip]
      split
      · rfl
      · exact hstarted
    · rw [if_neg htext]
      by_cases hbinary : frame.opCode = opCodeBinary
      · rw [if_pos hbinary, if_pos (Or.inr hbinary), processBinary, receiveData, hskip]
        split
        · rfl
        · exact hstarted
      · rw [if_neg hbinary, if_neg (not_or.mpr ⟨htext, hbinary⟩)]
        by_cases hclose : frame.opCode = opCodeClose
        · rw [if_pos hclose, if_pos hclose, ← (blind_receiveClose socket _ _).commutes]
          have hrecorded : skipFrame { t.withBuffer buffer with
              closeEventCode := receivedCloseCode frame.payload
              closeEventReason := receivedCloseReason frame.payload } frame =
                withBuffer (buffer.drop frame.frameEnd) { t with
                  closeEventCode := receivedCloseCode frame.payload
                  closeEventReason := receivedCloseReason frame.payload } :=
            skipFrame_withBuffer (t := { t with
              closeEventCode := receivedCloseCode frame.payload
              closeEventReason := receivedCloseReason frame.payload }) ht hle
          rw [processClose, hrecorded]
          rfl
        · rw [if_neg hclose, if_neg hclose]
          by_cases hping : frame.opCode = opCodePing
          · rw [if_pos hping, if_pos hping, processPing, receivePing]
            have hreply := (blind_enqueueFrame socket
              (.vector opCodePong frame.payload)).commutes buffer t
            rw [enqueueRawFrame, hreply]
            cases hfreed : (t.enqueueFrame socket (.vector opCodePong frame.payload)).freed
            · rw [skipFrame_withBuffer hfreed hle, enqueueRawFrame, hfreed]
              rfl
            · rw [enqueueRawFrame, skipFrame]
              have hempty : ((t.enqueueFrame socket
                  (.vector opCodePong frame.payload)).withBuffer buffer).buffer = [] :=
                if_pos hfreed
              rw [hempty, if_pos (show [].length < frame.frameEnd from hpos), withBuffer, withBuffer]
              simp only [crash, hfreed, if_true]
          · rw [if_neg hping, if_neg hping, hskip]

end

/-! ## The whole stream -/

/-- No received byte will be read any more. -/
def stops (t : WebSocketChannel) : Bool :=
  !t.client || t.shouldDiscardReceivedData || t.receivedClosingHandshake || t.crashed

/-- The channel after all complete frames of the stream, up to one that stops it, and the bytes
after them. -/
def readStream (t : WebSocketChannel) (stream : Bytes) : WebSocketChannel × Bytes :=
  match _ : parseFrame stream with
  | .frameIncomplete => (t, stream)
  | .frameError payloadLength => (t.fail (.frameLengthTooLarge payloadLength), [])
  | .frameOK frame =>
    if (t.receiveFrame socket frame).stops then (t.receiveFrame socket frame, [])
    else readStream (t.receiveFrame socket frame) (stream.drop frame.frameEnd)
termination_by stream.length
decreasing_by
  obtain ⟨h2, hle, -⟩ := parseFrame_frameEnd ‹_›
  rw [length_drop]
  omega

theorem readStream_incomplete (h : parseFrame stream = .frameIncomplete) (t : WebSocketChannel) :
    t.readStream socket stream = (t, stream) := by
  rw [readStream]
  split
  · rfl
  all_goals
    rename_i heq
    rw [h] at heq
    cases heq

theorem readStream_error (h : parseFrame stream = .frameError payloadLength)
    (t : WebSocketChannel) :
    t.readStream socket stream = (t.fail (.frameLengthTooLarge payloadLength), []) := by
  rw [readStream]
  split
  · rename_i heq
    rw [h] at heq
    cases heq
  · rename_i heq
    rw [h] at heq
    cases heq
    rfl
  · rename_i heq
    rw [h] at heq
    cases heq

theorem readStream_frame (h : parseFrame stream = .frameOK frame) (t : WebSocketChannel) :
    t.readStream socket stream =
      if (t.receiveFrame socket frame).stops then (t.receiveFrame socket frame, [])
      else (t.receiveFrame socket frame).readStream socket (stream.drop frame.frameEnd) := by
  rw [readStream]
  split
  · rename_i heq
    rw [h] at heq
    cases heq
  · rename_i heq
    rw [h] at heq
    cases heq
  · rename_i heq
    rw [h] at heq
    cases heq
    rfl

theorem discards_didCloseSocketStream (h : t.shouldDiscardReceivedData = true) :
    t.didCloseSocketStream.shouldDiscardReceivedData = true := by
  have hclosed : t.setClosed.shouldDiscardReceivedData = true := by
    rw [setClosed]
    split
    · rw [abortOutgoingFrameQueue]
      split
      · rfl
      · exact h
    · exact h
  rw [didCloseSocketStream]
  split <;> exact hclosed

theorem stops_fail (t : WebSocketChannel) (failure : Failure) : (t.fail failure).stops = true := by
  have hdiscards : (t.fail failure).shouldDiscardReceivedData = true := by
    rw [fail]
    split
    · exact discards_didCloseSocketStream rfl
    · rfl
  simp [stops, hdiscards]

theorem stops_withBuffer (t : WebSocketChannel) (buffer : Bytes) :
    (t.withBuffer buffer).stops = t.stops := rfl

/-- Bytes are left in the buffer of a channel that has stopped, or thrown away. -/
theorem processReceivedFrames_stopped : ∀ (fuel : ℕ) {t : WebSocketChannel}, t.stops = true →
    (processReceivedFrames socket fuel t).withBuffer [] = t.withBuffer []
  | 0, _, _ => rfl
  | fuel + 1, t, ht => by
    rw [processReceivedFrames]
    split
    · rename_i hround
      -- the round stops in `processBuffer`
      simp only [Bool.and_eq_true, Bool.not_eq_true'] at hround
      have hclient : t.client = true := hround.1.1.2
      have hcrashed : t.crashed = false := hround.2
      rw [processBuffer]
      by_cases hdiscard : t.shouldDiscardReceivedData = true
      · rw [if_pos hdiscard]
        rfl
      · have hreceived : t.receivedClosingHandshake = true := by
          simp only [stops, hclient, hcrashed, Bool.eq_false_of_not_eq_true hdiscard,
            Bool.or_false] at ht
          exact ht
        rw [if_neg hdiscard, if_pos hreceived]
        rfl
    · rfl

/-- The loop reads the bytes of the buffer as `readStream` does. -/
theorem processReceivedFrames_eq : ∀ (fuel : ℕ) (buffer : Bytes) {t : WebSocketChannel},
    IsAttached t → t.stops = false → buffer.length ≤ fuel →
      (processReceivedFrames socket fuel (t.withBuffer buffer)).withBuffer [] =
          (t.readStream socket buffer).1.withBuffer [] ∧
        ((t.readStream socket buffer).1.stops = false →
          processReceivedFrames socket fuel (t.withBuffer buffer) =
            (t.readStream socket buffer).1.withBuffer (t.readStream socket buffer).2)
  | 0, buffer, t, hattached, hlive, hfuel => by
    rw [length_eq_zero_iff.mp (Nat.le_zero.mp hfuel), readStream_incomplete socket rfl]
    exact ⟨rfl, fun _ => rfl⟩
  | fuel + 1, buffer, t, hattached, hlive, hfuel => by
    simp only [stops, Bool.or_eq_false_iff, Bool.not_eq_false'] at hlive
    obtain ⟨⟨⟨hclient, hdiscard⟩, hreceived⟩, hcrashed⟩ := hlive
    have hfreed := hattached.not_freed hdiscard
    have hbuffer := buffer_withBuffer hfreed buffer
    rw [processReceivedFrames]
    by_cases hempty : buffer = []
    · subst hempty
      rw [if_neg (by rw [hbuffer]; simp), readStream_incomplete socket rfl]
      exact ⟨rfl, fun _ => rfl⟩
    · have hround : (!(t.withBuffer buffer).suspended && (t.withBuffer buffer).client &&
          !(t.withBuffer buffer).buffer.isEmpty && !(t.withBuffer buffer).crashed) = true := by
        rw [hbuffer]
        change (!t.suspended && t.client && !buffer.isEmpty && !t.crashed) = true
        rw [hattached.1, hclient, hcrashed]
        simpa using hempty
      rw [if_pos hround]
      have hprocess : (t.withBuffer buffer).processBuffer socket =
          (t.withBuffer buffer).processFrame socket := by
        rw [processBuffer, if_neg (show ¬(t.withBuffer buffer).shouldDiscardReceivedData = true by
            change ¬t.shouldDiscardReceivedData = true
            rw [hdiscard]
            decide),
          if_neg (show ¬(t.withBuffer buffer).receivedClosingHandshake = true by
            change ¬t.receivedClosingHandshake = true
            rw [hreceived]
            decide)]
      rw [hprocess, processFrame, hbuffer]
      cases hparse : parseFrame buffer with
      | frameIncomplete =>
        rw [readStream_incomplete socket hparse]
        exact ⟨rfl, fun _ => rfl⟩
      | frameError payloadLength =>
        rw [readStream_error socket hparse]
        refine ⟨rfl, fun hlive => ?_⟩
        rw [stops_fail] at hlive
        cases hlive
      | frameOK frame =>
        obtain ⟨h2, hle, -⟩ := parseFrame_frameEnd hparse
        obtain ⟨hle', hdrop⟩ := unmaskInPlace_spec hparse
        have hunmasked : { t.withBuffer buffer with buffer := unmaskInPlace buffer frame } =
            t.withBuffer (unmaskInPlace buffer frame) := by
          rw [withBuffer, withBuffer, hfreed, if_neg (by decide), if_neg (by decide)]
        rw [readStream_frame socket hparse]
        dsimp only
        rw [hunmasked, show (t.withBuffer (unmaskInPlace buffer frame)).validateFrame frame =
          t.validateFrame frame from rfl]
        cases hvalid : t.validateFrame frame with
        | some failure =>
          have hreceive : t.receiveFrame socket frame = t.fail failure := by
            rw [receiveFrame, hvalid]
          rw [hreceive, stops_fail, if_pos rfl]
          refine ⟨rfl, fun hlive => ?_⟩
          rw [stops_fail] at hlive
          cases hlive
        | none =>
          have hdispatch := dispatchFrame_withBuffer socket hfreed hvalid hle' (by omega)
          rw [hdrop] at hdispatch
          have hattached' := hattached.receiveFrame socket frame
          dsimp only
          rw [hdispatch]
          generalize t.receiveFrame socket frame = t' at hattached' ⊢
          cases hstops : t'.stops with
          | true =>
            rw [if_pos rfl]
            refine ⟨?_, fun hlive => ?_⟩
            · split
              · exact processReceivedFrames_stopped socket fuel (t := t'.withBuffer _) hstops
              · rfl
            · rw [hstops] at hlive
              cases hlive
          | false =>
            have hdiscard' : t'.shouldDiscardReceivedData = false := by
              simp only [stops, Bool.or_eq_false_iff] at hstops
              exact hstops.1.1.2
            rw [buffer_withBuffer (hattached'.not_freed hdiscard')]
            by_cases hrest : buffer.drop frame.frameEnd = []
            · rw [hrest, readStream_incomplete socket rfl]
              exact ⟨rfl, fun _ => rfl⟩
            · rw [if_pos (by simpa using hrest)]
              exact processReceivedFrames_eq fuel _ hattached' hstops
                (by rw [length_drop]; omega)

/-- A stream may be read in two parts. -/
theorem readStream_append (ht : t.stops = false) (stream more : Bytes) :
    if (t.readStream socket stream).1.stops then
      (t.readStream socket (stream ++ more)).1 = (t.readStream socket stream).1
    else
      t.readStream socket (stream ++ more) = (t.readStream socket stream).1.readStream socket
          ((t.readStream socket stream).2 ++ more) := by
  induction t, stream using readStream.induct socket with
  | case1 t stream hparse =>
    rw [readStream_incomplete socket hparse, if_neg (by rw [ht]; exact Bool.false_ne_true)]
  | case2 t stream payloadLength hparse =>
    have hparse' : parseFrame (stream ++ more) = .frameError payloadLength := by
      rw [parseFrame_append (by rw [hparse]; simp), hparse]
    rw [readStream_error socket hparse, readStream_error socket hparse', if_pos (stops_fail _ _)]
  | case3 t stream frame hparse hstops =>
    have hparse' : parseFrame (stream ++ more) = .frameOK frame := by
      rw [parseFrame_append (by rw [hparse]; simp), hparse]
    rw [readStream_frame socket hparse, readStream_frame socket hparse', if_pos hstops,
      if_pos hstops, if_pos hstops]
  | case4 t stream frame hparse hstops ih =>
    have hparse' : parseFrame (stream ++ more) = .frameOK frame := by
      rw [parseFrame_append (by rw [hparse]; simp), hparse]
    rw [readStream_frame socket hparse, readStream_frame socket hparse', if_neg hstops,
      if_neg hstops, drop_append_of_le_length (parseFrame_frameEnd hparse).2.1]
    exact ih (Bool.eq_false_of_not_eq_true hstops)

/-- Reading what was left leaves it again. -/
theorem readStream_readStream (t : WebSocketChannel) (stream : Bytes)
    (hlive : (t.readStream socket stream).1.stops = false) :
    (t.readStream socket stream).1.readStream socket (t.readStream socket stream).2 =
      t.readStream socket stream := by
  induction t, stream using readStream.induct socket with
  | case1 t stream hparse =>
    rw [readStream_incomplete socket hparse, readStream_incomplete socket hparse]
  | case2 t stream payloadLength hparse =>
    rw [readStream_error socket hparse, stops_fail] at hlive
    cases hlive
  | case3 t stream frame hparse hstops =>
    rw [readStream_frame socket hparse, if_pos hstops, hstops] at hlive
    cases hlive
  | case4 t stream frame hparse hstops ih =>
    rw [readStream_frame socket hparse, if_neg hstops] at hlive ⊢
    exact ih hlive

theorem IsAttached.readStream (h : IsAttached t) (stream : Bytes) :
    IsAttached (t.readStream socket stream).1 := by
  induction t, stream using readStream.induct socket with
  | case1 t stream hparse =>
    rw [readStream_incomplete socket hparse]
    exact h
  | case2 t stream payloadLength hparse =>
    rw [readStream_error socket hparse]
    exact (blind_fail _).attached h
  | case3 t stream frame hparse hstops =>
    rw [readStream_frame socket hparse, if_pos hstops]
    exact h.receiveFrame socket frame
  | case4 t stream frame hparse hstops ih =>
    rw [readStream_frame socket hparse, if_neg hstops]
    exact ih (h.receiveFrame socket frame)

/-! ## Chunks -/

/-- The channel after the chunks. -/
def receiveAll (s : WebSocketChannel) (chunks : List Bytes) : WebSocketChannel :=
  chunks.foldl (fun s data => s.didReceiveSocketStreamData socket data) s

/-- A channel that has stopped stays as it is. -/
theorem receive_stopped (hattached : IsAttached s) (hstops : s.stops = true) (hdata : data ≠ []) :
    (s.didReceiveSocketStreamData socket data).withBuffer [] = s.withBuffer [] := by
  rw [didReceiveSocketStreamData]
  by_cases hdocument : s.document = true
  · have hclient : s.client = true := hattached.2.1.symm.trans hdocument
    rw [if_neg (by rw [hdocument]; decide), if_neg hdata, if_neg (by rw [hclient]; decide)]
    split
    · rfl
    · exact processReceivedFrames_stopped socket _
        (t := { s with buffer := s.buffer ++ data }) hstops
  · rw [if_pos (by rw [Bool.eq_false_of_not_eq_true hdocument]; decide)]

theorem receiveAll_stopped : ∀ (chunks : List Bytes) {s : WebSocketChannel}, IsAttached s →
    s.stops = true → (∀ data ∈ chunks, data ≠ []) →
      (receiveAll socket s chunks).withBuffer [] = s.withBuffer []
  | [], _, _, _, _ => rfl
  | data :: chunks, s, hattached, hstops, hdata => by
    have hsame := receive_stopped socket hattached hstops (hdata data mem_cons_self)
    have hattached' : IsAttached (s.didReceiveSocketStreamData socket data) := by
      have h : IsAttached ((s.didReceiveSocketStreamData socket data).withBuffer []) := by
        rw [hsame]
        exact hattached
      exact h
    have hstops' : (s.didReceiveSocketStreamData socket data).stops = true := by
      rw [← stops_withBuffer _ [], hsame]
      exact hstops
    have hrest := receiveAll_stopped chunks hattached' hstops'
      fun d hd => hdata d (mem_cons_of_mem _ hd)
    exact hrest.trans hsame

/-- A chunk is read after what was left. -/
theorem receive_live (hattached : IsAttached t) (hlive : t.stops = false)
    (hdata : data ≠ []) (buffer : Bytes) :
    ((t.withBuffer buffer).didReceiveSocketStreamData socket data).withBuffer [] =
        (t.readStream socket (buffer ++ data)).1.withBuffer [] ∧
      ((t.readStream socket (buffer ++ data)).1.stops = false →
        (t.withBuffer buffer).didReceiveSocketStreamData socket data =
          (t.readStream socket (buffer ++ data)).1.withBuffer
            (t.readStream socket (buffer ++ data)).2) := by
  have hfields := hlive
  simp only [stops, Bool.or_eq_false_iff, Bool.not_eq_false'] at hfields
  obtain ⟨⟨⟨hclient, hdiscard⟩, -⟩, -⟩ := hfields
  have hdocument : t.document = true := hattached.2.1.trans hclient
  have hfreed := hattached.not_freed hdiscard
  have hbuffer := buffer_withBuffer hfreed buffer
  have happended : { t.withBuffer buffer with buffer := buffer ++ data } =
      t.withBuffer (buffer ++ data) := by
    rw [withBuffer, withBuffer, hfreed, if_neg Bool.false_ne_true, if_neg Bool.false_ne_true]
  have hreceive : (t.withBuffer buffer).didReceiveSocketStreamData socket data =
      processReceivedFrames socket (buffer ++ data).length (t.withBuffer (buffer ++ data)) := by
    rw [didReceiveSocketStreamData, hbuffer, happended]
    rw [if_neg (show ¬(!(t.withBuffer buffer).document) = true by
        change ¬(!t.document) = true
        rw [hdocument]
        decide), if_neg hdata,
      if_neg (show ¬(!(t.withBuffer buffer).client) = true by
        change ¬(!t.client) = true
        rw [hclient]
        decide),
      if_neg (show ¬(t.withBuffer buffer).shouldDiscardReceivedData = true by
        change ¬t.shouldDiscardReceivedData = true
        rw [hdiscard]
        decide)]
  rw [hreceive]
  exact processReceivedFrames_eq socket _ _ hattached hlive le_rfl

/-- However the stream is cut, the channel is that of the whole stream. -/
theorem receiveAll_eq : ∀ (chunks : List Bytes) {t : WebSocketChannel} (buffer : Bytes),
    IsAttached t → t.stops = false → t.readStream socket buffer = (t, buffer) →
      (∀ data ∈ chunks, data ≠ []) →
      (receiveAll socket (t.withBuffer buffer) chunks).withBuffer [] =
        (t.readStream socket (buffer ++ chunks.flatten)).1.withBuffer []
  | [], t, buffer, _, _, hread, _ => by
    rw [flatten_nil, append_nil, hread]
    rfl
  | data :: chunks, t, buffer, hattached, hlive, hread, hdata => by
    have hne := hdata data mem_cons_self
    have hrest : ∀ d ∈ chunks, d ≠ [] := fun d hd => hdata d (mem_cons_of_mem _ hd)
    obtain ⟨hsame, hnext⟩ := receive_live socket hattached hlive hne buffer
    have happend := readStream_append socket hlive (buffer ++ data) chunks.flatten
    have hattached' := hattached.readStream socket (buffer ++ data)
    have hagain := readStream_readStream socket t (buffer ++ data)
    rw [flatten_cons, ← append_assoc]
    change (receiveAll socket ((t.withBuffer buffer).didReceiveSocketStreamData socket data)
      chunks).withBuffer [] = _
    generalize t.readStream socket (buffer ++ data) = r at hsame hnext happend hattached' hagain
    obtain ⟨t', buffer'⟩ := r
    cases hstops : t'.stops with
    | true =>
      rw [if_pos hstops] at happend
      rw [happend, ← hsame]
      have hsame' := congrArg IsAttached hsame
      refine receiveAll_stopped socket chunks (hsame'.mpr hattached') ?_ hrest
      rw [← stops_withBuffer _ [], hsame]
      exact hstops
    | false =>
      rw [if_neg (by rw [hstops]; exact Bool.false_ne_true)] at happend
      rw [happend, hnext hstops]
      exact receiveAll_eq chunks buffer' hattached' hstops (hagain hstops) hrest

end Socket

end WebSocketChannel

end WebSockets
end WebKit
