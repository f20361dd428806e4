import WebKit.WTF.UTF8

/-!
# The WebSocket channel

One end of a hybi WebSocket connection, after the handshake: the bytes that the socket delivers are
read as frames, and the frames to send wait in a queue while a blob at its front is loaded.

* `parseFrame`: a frame at the front of the received bytes.
* `processOutgoingFrameQueue`: the loop that sends the frames of the queue.
* `processFrame`, `didReceiveSocketStreamData`: what the channel does with received bytes.
* `Event`: what happens to a channel from outside, in any order.

`log` lists what the channel does to its client, its socket and its blob loader.  The socket decides
what becomes of each frame it is given and chooses the masking keys; it is the parameter `socket`.
-/

namespace WebKit
namespace WebSockets

open WTF (UString fromUTF8 utf8)

abbrev Bytes := List UInt8

/-! ## Frames -/

abbrev OpCode := ℕ

def opCodeContinuation : OpCode := 0x0
def opCodeText : OpCode := 0x1
def opCodeBinary : OpCode := 0x2
def opCodeClose : OpCode := 0x8
def opCodePing : OpCode := 0x9
def opCodePong : OpCode := 0xA

def isNonControlOpCode (opCode : OpCode) : Bool :=
  opCode == opCodeContinuation || opCode == opCodeText || opCode == opCodeBinary

def isControlOpCode (opCode : OpCode) : Bool :=
  opCode == opCodeClose || opCode == opCodePing || opCode == opCodePong

def isReservedOpCode (opCode : OpCode) : Bool :=
  !isNonControlOpCode opCode && !isControlOpCode opCode

def finalBit : UInt8 := 0x80
def reserved1Bit : UInt8 := 0x40
def reserved2Bit : UInt8 := 0x20
def reserved3Bit : UInt8 := 0x10
def opCodeMask : UInt8 := 0xF
def maskBit : UInt8 := 0x80
def payloadLengthMask : UInt8 := 0x7F
def maxPayloadLengthWithoutExtendedLengthField : ℕ := 125
def payloadLengthWithTwoByteExtendedLengthField : ℕ := 126
def payloadLengthWithEightByteExtendedLengthField : ℕ := 127
def maskingKeyWidthInBytes : ℕ := 4

/-- The longest payload that `parseFrame` accepts. -/
def maxPayloadLength : ℕ := 0x7FFFFFFFFFFFFFFF

/-- A frame; `frameEnd` is counted from the front of the buffer. -/
structure FrameData where
  opCode : OpCode
  final : Bool
  reserved1 : Bool
  reserved2 : Bool
  reserved3 : Bool
  masked : Bool
  payload : Bytes
  frameEnd : ℕ
  deriving DecidableEq

inductive ParseFrameResult
  | frameOK (frame : FrameData)
  | frameIncomplete
  | frameError (payloadLength : ℕ)
  deriving DecidableEq

/-- Masks or unmasks a payload. -/
def maskPayload (maskingKey payload : Bytes) : Bytes :=
  payload.mapIdx fun i b => b ^^^ maskingKey.getD (i % maskingKeyWidthInBytes) 0

/-- A number in the network byte order. -/
def readLength (bytes : Bytes) : ℕ := bytes.foldl (fun n b => n * 256 + b.toNat) 0

def extendedPayloadLengthSize (payloadLength : ℕ) : ℕ :=
  if payloadLength = payloadLengthWithTwoByteExtendedLengthField then 2 else 8

/-- The length of the payload with the bytes after the length field, when the field is complete. -/
def readPayloadLength (payloadLength : ℕ) (p : Bytes) : Option (ℕ × Bytes) :=
  if maxPayloadLengthWithoutExtendedLengthField < payloadLength then
    if p.length < extendedPayloadLengthSize payloadLength then none
    else
      some (readLength (p.take (extendedPayloadLengthSize payloadLength)),
        p.drop (extendedPayloadLengthSize payloadLength))
  else some (payloadLength, p)

def maskingKeyLength (masked : Bool) : ℕ := if masked then maskingKeyWidthInBytes else 0

/-- The frame whose payload begins with the masking key at `p`, after a header of `headerLength`
bytes. -/
def readFrame (firstByte : UInt8) (masked : Bool) (headerLength payloadLength : ℕ) (p : Bytes) :
    ParseFrameResult :=
  if maxPayloadLength < payloadLength then .frameError payloadLength
  else if p.length < maskingKeyLength masked + payloadLength then .frameIncomplete
  else
    let payload := (p.drop (maskingKeyLength masked)).take payloadLength
    .frameOK
      { opCode := (firstByte &&& opCodeMask).toNat
        final := firstByte &&& finalBit != 0
        reserved1 := firstByte &&& reserved1Bit != 0
        reserved2 := firstByte &&& reserved2Bit != 0
        reserved3 := firstByte &&& reserved3Bit != 0
        masked := masked
        payload := if masked then maskPayload (p.take maskingKeyWidthInBytes) payload else payload
        frameEnd := headerLength + maskingKeyLength masked + payloadLength }

/-- The frame at the front of the buffer, with its payload unmasked. -/
def parseFrame : Bytes → ParseFrameResult
  | firstByte :: secondByte :: extended =>
    match readPayloadLength (secondByte &&& payloadLengthMask).toNat extended with
    | none => .frameIncomplete
    | some (payloadLength, p) =>
      readFrame firstByte (secondByte &&& maskBit != 0) (2 + (extended.length - p.length))
        payloadLength p
  | _ => .frameIncomplete

/-- The buffer after the payload of its first frame was unmasked in place. -/
def unmaskInPlace (buffer : Bytes) (frame : FrameData) : Bytes :=
  buffer.take (frame.frameEnd - frame.payload.length) ++ frame.payload ++ buffer.drop frame.frameEnd

/-- The length field of a frame that is sent: the second byte, and the bytes after it. -/
def writeLength (dataLength : ℕ) : Bytes :=
  if dataLength ≤ maxPayloadLengthWithoutExtendedLengthField then [maskBit ||| dataLength.toUInt8]
  else if dataLength ≤ 0xFFFF then
    [maskBit ||| payloadLengthWithTwoByteExtendedLengthField.toUInt8,
      (dataLength / 256).toUInt8, dataLength.toUInt8]
  else
    (maskBit ||| payloadLengthWithEightByteExtendedLengthField.toUInt8) ::
      (List.range 8).map fun i => (dataLength / 256 ^ (7 - i)).toUInt8

/-- The bytes that `sendFrame` gives to the socket. -/
def frameBytes (opCode : OpCode) (maskingKey : Vector UInt8 4) (data : Bytes) : Bytes :=
  (finalBit ||| opCode.toUInt8) :: writeLength data.length ++ maskingKey.toList ++
    maskPayload maskingKey.toList data

/-! ## The surroundings -/

/-- What the channel reads of a `Blob`. -/
structure Blob where
  url : UString
  type : UString
  size : ℕ
  deriving DecidableEq

inductive QueuedFrame
  | string (opCode : OpCode) (stringData : UString)
  | vector (opCode : OpCode) (vectorData : Bytes)
  | blob (opCode : OpCode) (blobData : Blob)
  deriving DecidableEq

def QueuedFrame.opCode : QueuedFrame → OpCode
  | string opCode _ => opCode
  | vector opCode _ => opCode
  | blob opCode _ => opCode

inductive OutgoingFrameQueueStatus
  | outgoingFrameQueueOpen
  | outgoingFrameQueueClosing
  | outgoingFrameQueueClosed
  deriving DecidableEq

inductive BlobLoaderStatus
  | blobLoaderNotStarted
  | blobLoaderStarted
  | blobLoaderFinished
  | blobLoaderFailed
  deriving DecidableEq

open OutgoingFrameQueueStatus BlobLoaderStatus

/-- A `FileReaderLoader` started for a blob, and the bytes it has loaded. -/
structure BlobLoader where
  blob : Blob
  arrayBufferResult : Bytes
  deriving DecidableEq

/-- Why a connection fails. -/
inductive Failure
  | frameLengthTooLarge (payloadLength : ℕ)
  | unrecognizedOpCode (opCode : OpCode)
  | reservedBits (reserved1 reserved2 reserved3 : Bool)
  | fragmentedControlFrame (opCode : OpCode)
  | controlPayloadTooLong (payloadLength : ℕ)
  | previousFrameUnfinished
  | unexpectedContinuation
  | notUTF8
  | sendFailed
  | blobFailed (errorCode : ℕ)
  deriving DecidableEq

/-- The text of the console message. -/
def Failure.reason : Failure → String
  | frameLengthTooLarge n => "WebSocket frame length too large: " ++ toString n ++ " bytes"
  | unrecognizedOpCode opCode => "Unrecognized frame opcode: " ++ toString opCode
  | reservedBits reserved1 reserved2 reserved3 =>
    "One or more reserved bits are on: reserved1 = " ++ toString reserved1.toNat ++
      ", reserved2 = " ++ toString reserved2.toNat ++ ", reserved3 = " ++
      toString reserved3.toNat
  | fragmentedControlFrame opCode => "Received fragmented control frame: opcode = " ++ toString opCode
  | controlPayloadTooLong n =>
    "Received control frame having too long payload: " ++ toString n ++ " bytes"
  | previousFrameUnfinished =>
    "Received new data frame but previous continuous frame is unfinished."
  | unexpectedContinuation => "Received unexpected continuation frame."
  | notUTF8 => "Could not decode a text frame as UTF-8."
  | sendFailed => "Failed to send WebSocket frame."
  | blobFailed errorCode => "Failed to load Blob: error code = " ++ toString errorCode

/-- The checks of a frame, while a message is unfinished or not. -/
def frameFailure (hasContinuousFrame : Bool) (frame : FrameData) : Option Failure :=
  if isReservedOpCode frame.opCode then some (.unrecognizedOpCode frame.opCode)
  else if frame.reserved1 || frame.reserved2 || frame.reserved3 then
    some (.reservedBits frame.reserved1 frame.reserved2 frame.reserved3)
  else if isControlOpCode frame.opCode && !frame.final then
    some (.fragmentedControlFrame frame.opCode)
  else if isControlOpCode frame.opCode &&
      decide (maxPayloadLengthWithoutExtendedLengthField < frame.payload.length) then
    some (.controlPayloadTooLong frame.payload.length)
  else if hasContinuousFrame && frame.opCode != opCodeContinuation &&
      !isControlOpCode frame.opCode then
    some .previousFrameUnfinished
  else if frame.opCode == opCodeContinuation && !hasContinuousFrame then
    some .unexpectedContinuation
  else none

def ABORT_ERR : ℕ := 3

/-- What a channel does to its surroundings, and what it is told about blobs. -/
inductive Effect
  | didReceiveMessage (message : UString)
  | didReceiveBinaryData (binaryData : Bytes)
  | didStartClosingHandshake
  | didClose (closingHandshakeComplete : Bool) (code : ℕ) (reason : Option UString)
  /-- The console message of `fail`. -/
  | failed (failure : Failure)
  /-- The console message of `didFailSocketStream`. -/
  | networkError
  /-- A frame was put into the outgoing queue. -/
  | enqueued (frame : QueuedFrame)
  | startedLoading (blob : Blob)
  | finishedLoading (blob : Blob) (result : Bytes)
  /-- The socket took these bytes. -/
  | sent (bytes : Bytes)
  /-- `m_handle->close()`. -/
  | closedHandle
  | receivedClose (code : ℕ) (reason : Option UString)
  | queueStatus (status : OutgoingFrameQueueStatus)
  deriving DecidableEq

/-- What becomes of the bytes given to `SocketStreamHandleBase::send`. -/
inductive SendResult
  /-- There is room for them in the buffer of the socket, or they are written. -/
  | taken
  /-- `send` returns false. -/
  | refused
  /-- Writing fails: `platformSend` calls `didFailSocketStream`, and then `send` returns true if the
  bytes had room in the buffer. -/
  | failed (returned : Bool)
  deriving DecidableEq

/-- The socket: what becomes of the `n`-th send, the masking key made for it, and whether `close()`
closes it before it returns, which it does when no bytes are left to write. -/
structure SocketStreamHandle where
  result : ℕ → SendResult
  maskingKey : ℕ → Vector UInt8 4
  closesAtOnce : Bool

/-- The length that `send` is given, an `int`. -/
def sendLength (bytes : Bytes) : ℤ := Int.bmod bytes.length (2 ^ 32)

/-- A connected channel.  The first three fields tell which of the pointers are not null; an empty
buffer is the null pointer. -/
structure WebSocketChannel where
  document : Bool
  client : Bool
  handle : Bool
  buffer : Bytes
  /-- `fail` has freed the buffer. -/
  freed : Bool
  suspended : Bool
  closing : Bool
  receivedClosingHandshake : Bool
  closed : Bool
  shouldDiscardReceivedData : Bool
  hasContinuousFrame : Bool
  continuousFrameOpCode : OpCode
  continuousFrameData : Bytes
  closeEventCode : ℕ
  closeEventReason : Option UString
  outgoingFrameQueue : List QueuedFrame
  outgoingFrameQueueStatus : OutgoingFrameQueueStatus
  blobLoader : Option BlobLoader
  blobLoaderStatus : BlobLoaderStatus
  /-- The number of frames given to the socket. -/
  sends : ℕ
  log : List Effect
  /-- A null pointer was used, memory outside the buffer was written, or `CRASH()` was called. -/
  crashed : Bool
  deriving DecidableEq

/-- `CloseEventCodeNotSpecified`. -/
def closeEventCodeNotSpecified : ℤ := -1
def closeEventCodeNoStatusRcvd : ℕ := 1005
def closeEventCodeAbnormalClosure : ℕ := 1006

namespace WebSocketChannel

/-- A new channel whose handshake has been answered. -/
def connected : WebSocketChannel where
  document := true
  client := true
  handle := true
  buffer := []
  freed := false
  suspended := false
  closing := false
  receivedClosingHandshake := false
  closed := false
  shouldDiscardReceivedData := false
  hasContinuousFrame := false
  continuousFrameOpCode := opCodeContinuation
  continuousFrameData := []
  closeEventCode := closeEventCodeAbnormalClosure
  closeEventReason := none
  outgoingFrameQueue := []
  outgoingFrameQueueStatus := outgoingFrameQueueOpen
  blobLoader := none
  blobLoaderStatus := blobLoaderNotStarted
  sends := 0
  log := []
  crashed := false

variable (s : WebSocketChannel)

/-- Adds an effect to the log. -/
def effect (e : Effect) : WebSocketChannel := { s with log := s.log ++ [e] }

/-- Adds an effect to the log if there is someone to see it. -/
def effectIf (present : Bool) (e : Effect) : WebSocketChannel :=
  { s with log := if present then s.log ++ [e] else s.log }

def crash : WebSocketChannel := { s with crashed := true }

/-- An assignment of `m_outgoingFrameQueueStatus`. -/
def setQueueStatus (status : OutgoingFrameQueueStatus) : WebSocketChannel :=
  { s with outgoingFrameQueueStatus := status }.effect (.queueStatus status)

/-! ## Failing and closing -/

/-- `fail`, up to the call of `disconnect`. -/
def discardReceivedData (failure : Failure) : WebSocketChannel :=
  { s.effectIf s.document (.failed failure) with
    shouldDiscardReceivedData := true
    buffer := []
    freed := true
    hasContinuousFrame := false
    continuousFrameData := [] }

/-- The queue is aborted when the socket has closed, so that the `fail` in `didFail` does not
disconnect it. -/
def abortOutgoingFrameQueue : WebSocketChannel :=
  let aborted := { s with outgoingFrameQueue := [] }.setQueueStatus outgoingFrameQueueClosed
  if s.blobLoaderStatus = blobLoaderStarted then
    { aborted with
      blobLoader := none
      blobLoaderStatus := blobLoaderFailed }.discardReceivedData (.blobFailed ABORT_ERR)
  else aborted

/-- `didCloseSocketStream`, up to the test of the handle. -/
def setClosed : WebSocketChannel :=
  let closed := { s with closed := true }
  if closed.outgoingFrameQueueStatus ≠ outgoingFrameQueueClosed then
    closed.abortOutgoingFrameQueue
  else closed

def didCloseSocketStream : WebSocketChannel :=
  let aborted := s.setClosed
  if aborted.handle && !aborted.suspended then
    { aborted with client := false, document := false, handle := false }.effectIf aborted.client
      (.didClose aborted.receivedClosingHandshake aborted.closeEventCode aborted.closeEventReason)
  else aborted

/-- The socket closes while it is being disconnected. -/
def fail (failure : Failure) : WebSocketChannel :=
  let discarded := s.discardReceivedData failure
  if s.handle && !s.closed then discarded.didCloseSocketStream else discarded

/-- `didFailSocketStream`, with the closing of the socket. -/
def didFailSocketStream : WebSocketChannel :=
  { s.effectIf s.document .networkError with
    shouldDiscardReceivedData := true }.didCloseSocketStream

def didFail (errorCode : ℕ) : WebSocketChannel :=
  { s with blobLoader := none, blobLoaderStatus := blobLoaderFailed }.fail (.blobFailed errorCode)

/-! ## Outgoing frames -/

section Socket

variable (socket : SocketStreamHandle)

variable (s : WebSocketChannel)

/-- What the socket does with the bytes of a frame.  With a negative length, the buffer of the socket
seems to have room for them only if the sum wraps, and `Vector::append` crashes then. -/
def giveToSocket (bytes : Bytes) : SendResult → WebSocketChannel
  | .taken =>
    if sendLength bytes < 0 then s.crash else s.effect (.sent (bytes.take (sendLength bytes).toNat))
  | .refused => s.fail .sendFailed
  | .failed returned =>
    if returned then s.didFailSocketStream else s.didFailSocketStream.fail .sendFailed

/-- `sendFrame`, and the `fail` of its callers. -/
def sendFrame (opCode : OpCode) (data : Bytes) : WebSocketChannel :=
  if s.handle then
    { s with sends := s.sends + 1 }.giveToSocket
      (frameBytes opCode (socket.maskingKey s.sends) data) (socket.result s.sends)
  else s.crash

/-- The queue is empty. -/
def finishOutgoingFrameQueue : WebSocketChannel :=
  if s.outgoingFrameQueueStatus = outgoingFrameQueueClosing then
    let finished := s.setQueueStatus outgoingFrameQueueClosed
    if finished.handle then
      let handleClosed := finished.effect .closedHandle
      if socket.closesAtOnce then handleClosed.didCloseSocketStream else handleClosed
    else finished.crash
  else s

/-- The loop of `processOutgoingFrameQueue`, with a bound on the number of its rounds. -/
def sendQueuedFrames : ℕ → WebSocketChannel → WebSocketChannel
  | 0, s => s
  | fuel + 1, s =>
    match s.outgoingFrameQueue with
    | [] => s.finishOutgoingFrameQueue socket
    | frame :: rest =>
      let taken := { s with outgoingFrameQueue := rest }
      match frame with
      | .string opCode stringData =>
        sendQueuedFrames fuel (taken.sendFrame socket opCode (utf8 stringData))
      | .vector opCode vectorData =>
        sendQueuedFrames fuel (taken.sendFrame socket opCode vectorData)
      | .blob opCode blobData =>
        match s.blobLoaderStatus with
        | blobLoaderNotStarted =>
          { s with
            blobLoader := some ⟨blobData, []⟩
            blobLoaderStatus := blobLoaderStarted }.effect (.startedLoading blobData)
        | blobLoaderStarted | blobLoaderFailed => s
        | blobLoaderFinished =>
          match s.blobLoader with
          | some loader =>
            let cleared :=
              { taken with blobLoader := none, blobLoaderStatus := blobLoaderNotStarted }
            sendQueuedFrames fuel (cleared.sendFrame socket opCode loader.arrayBufferResult)
          | none => s.crash

/-- Each round takes a frame from the queue, and the last one finds it empty. -/
def processOutgoingFrameQueue : WebSocketChannel :=
  if s.outgoingFrameQueueStatus = outgoingFrameQueueClosed then s
  else sendQueuedFrames socket (s.outgoingFrameQueue.length + 1) s

/-- What the three functions that enqueue a frame do with it. -/
def enqueueFrame (frame : QueuedFrame) : WebSocketChannel :=
  processOutgoingFrameQueue socket
    ({ s with outgoingFrameQueue := s.outgoingFrameQueue ++ [frame] }.effect (.enqueued frame))

def enqueueTextFrame (string : UString) : WebSocketChannel :=
  s.enqueueFrame socket (.string opCodeText string)

def enqueueRawFrame (opCode : OpCode) (data : Bytes) : WebSocketChannel :=
  s.enqueueFrame socket (.vector opCode data)

def enqueueBlobFrame (opCode : OpCode) (blob : Blob) : WebSocketChannel :=
  s.enqueueFrame socket (.blob opCode blob)

def didFinishLoading (result : Bytes) : WebSocketChannel :=
  match s.blobLoader with
  | some loader =>
    processOutgoingFrameQueue socket
      ({ s with
          blobLoader := some { loader with arrayBufferResult := result }
          blobLoaderStatus := blobLoaderFinished }.effect (.finishedLoading loader.blob result))
  | none => s

/-- The payload of a Close frame. -/
def closePayload (code : ℤ) (reason : Option UString) : Bytes :=
  if !s.receivedClosingHandshake && code != closeEventCodeNotSpecified then
    [(code / 256 % 256).toNat.toUInt8, (code % 256).toNat.toUInt8] ++ utf8 (reason.getD [])
  else []

def startClosingHandshake (code : ℤ) (reason : Option UString) : WebSocketChannel :=
  if s.closing then s
  else
    let enqueued := s.enqueueRawFrame socket opCodeClose (s.closePayload code reason)
    { enqueued with closing := true }.effectIf enqueued.client .didStartClosingHandshake

def close (code : ℤ) (reason : Option UString) : WebSocketChannel :=
  if s.handle then s.startClosingHandshake socket code reason else s

/-! ## Incoming frames -/

variable (frame : FrameData)

/-- `skipBuffer(frame.frameEnd - m_buffer)`.  The end of the frame is no address in the buffer once
that was freed. -/
def skipFrame : WebSocketChannel :=
  if s.buffer.length < frame.frameEnd then s.crash
  else { s with buffer := s.buffer.drop frame.frameEnd }

/-- A text message is decoded and given to the client. -/
def deliverText (data : Bytes) : WebSocketChannel :=
  if data = [] then s.effect (.didReceiveMessage [])
  else
    match fromUTF8 data with
    | none => s.crash
    | some none => s.fail .notUTF8
    | some (some message) => s.effect (.didReceiveMessage message)

/-- What is wrong with a frame. -/
def validateFrame : Option Failure :=
  frameFailure s.hasContinuousFrame frame

def processContinuation : WebSocketChannel :=
  let appended := { s with continuousFrameData := s.continuousFrameData ++ frame.payload }
  let skipped := appended.skipFrame frame
  if frame.final then
    let finished := { skipped with continuousFrameData := [], hasContinuousFrame := false }
    if s.continuousFrameOpCode = opCodeText then finished.deliverText skipped.continuousFrameData
    else if s.continuousFrameOpCode = opCodeBinary then
      finished.effect (.didReceiveBinaryData skipped.continuousFrameData)
    else finished
  else skipped

/-- The first frame of a message that goes on in continuation frames. -/
def startContinuousFrame : WebSocketChannel :=
  { s with
    hasContinuousFrame := true
    continuousFrameOpCode := frame.opCode
    continuousFrameData := s.continuousFrameData ++ frame.payload }.skipFrame frame

def processText : WebSocketChannel :=
  if frame.final then (s.skipFrame frame).deliverText frame.payload
  else s.startContinuousFrame frame

def processBinary : WebSocketChannel :=
  if frame.final then (s.skipFrame frame).effect (.didReceiveBinaryData frame.payload)
  else s.startContinuousFrame frame

/-- The code that a Close frame carries. -/
def receivedCloseCode (payload : Bytes) : ℕ :=
  match payload with
  | highByte :: lowByte :: _ => highByte.toNat * 256 + lowByte.toNat
  | _ => closeEventCodeNoStatusRcvd

/-- The reason that a Close frame carries, which is too short for a CRASH. -/
def receivedCloseReason (payload : Bytes) : Option UString :=
  if 3 ≤ payload.length then (fromUTF8 (payload.drop 2)).join else some []

def processClose : WebSocketChannel :=
  let code := receivedCloseCode frame.payload
  let reason := receivedCloseReason frame.payload
  let recorded := { s with closeEventCode := code, closeEventReason := reason }
  let received :=
    { recorded.skipFrame frame with receivedClosingHandshake := true }.effect
      (.receivedClose code reason)
  let started := received.startClosingHandshake socket code reason
  if started.closing then
    processOutgoingFrameQueue socket (started.setQueueStatus outgoingFrameQueueClosing)
  else started

def processPing : WebSocketChannel :=
  (s.enqueueRawFrame socket opCodePong frame.payload).skipFrame frame

/-- The switch on the opcode of a valid frame. -/
def dispatchFrame : WebSocketChannel :=
  if frame.opCode = opCodeContinuation then s.processContinuation frame
  else if frame.opCode = opCodeText then s.processText frame
  else if frame.opCode = opCodeBinary then s.processBinary frame
  else if frame.opCode = opCodeClose then s.processClose socket frame
  else if frame.opCode = opCodePing then s.processPing socket frame
  else s.skipFrame frame

/-- The frame at the front of the buffer, if it is complete; the result tells whether bytes are
left. -/
def processFrame : WebSocketChannel × Bool :=
  match parseFrame s.buffer with
  | .frameIncomplete => (s, false)
  | .frameError payloadLength => (s.fail (.frameLengthTooLarge payloadLength), false)
  | .frameOK frame =>
    let unmasked := { s with buffer := unmaskInPlace s.buffer frame }
    match unmasked.validateFrame frame with
    | some failure => (unmasked.fail failure, false)
    | none =>
      let processed := unmasked.dispatchFrame socket frame
      (processed, !processed.buffer.isEmpty)

def processBuffer : WebSocketChannel × Bool :=
  if s.shouldDiscardReceivedData then (s, false)
  else if s.receivedClosingHandshake then ({ s with buffer := [] }, false)
  else s.processFrame socket

/-- The loop of `didReceiveSocketStreamData`, with a bound on the number of its rounds. -/
def processReceivedFrames : ℕ → WebSocketChannel → WebSocketChannel
  | 0, s => s
  | fuel + 1, s =>
    if !s.suspended && s.client && !s.buffer.isEmpty && !s.crashed then
      let r := s.processBuffer socket
      if r.2 then processReceivedFrames fuel r.1 else r.1
    else s

/-- Each round takes a frame from the buffer, or is the last one. -/
def didReceiveSocketStreamData (data : Bytes) : WebSocketChannel :=
  if !s.document then s
  else if data = [] then s.didCloseSocketStream
  else if !s.client then { s with shouldDiscardReceivedData := true }.didCloseSocketStream
  else if s.shouldDiscardReceivedData then s
  else processReceivedFrames socket (s.buffer ++ data).length { s with buffer := s.buffer ++ data }

/-! ## Events -/

/-- What happens to a channel from outside. -/
inductive Event
  | sendString (message : UString)
  | sendArrayBuffer (binaryData : Bytes)
  | sendBlob (binaryData : Blob)
  | close (code : ℤ) (reason : Option UString)
  | didReceiveSocketStreamData (data : Bytes)
  | didFinishLoading (result : Bytes)
  | didFail (errorCode : ℕ)
  | didFailSocketStream
  | didCloseSocketStream

def step : Event → WebSocketChannel
  | .sendString message => s.enqueueTextFrame socket message
  | .sendArrayBuffer binaryData => s.enqueueRawFrame socket opCodeBinary binaryData
  | .sendBlob binaryData => s.enqueueBlobFrame socket opCodeBinary binaryData
  | .close code reason => s.close socket code reason
  | .didReceiveSocketStreamData data => s.didReceiveSocketStreamData socket data
  | .didFinishLoading result => s.didFinishLoading socket result
  | .didFail errorCode => s.didFail errorCode
  | .didFailSocketStream => s.didFailSocketStream
  | .didCloseSocketStream => s.didCloseSocketStream

def run (events : List Event) : WebSocketChannel :=
  events.foldl (fun s event => s.step socket event) s

end Socket

/-- A loader reports once, while it is loading, and the socket only while the channel has it. -/
def Event.Allowed : Event → Prop
  | .didFinishLoading _ => s.blobLoaderStatus = blobLoaderStarted
  | .didFail _ => s.blobLoaderStatus = blobLoaderStarted
  | .didReceiveSocketStreamData _ => s.handle = true
  | .didFailSocketStream => s.handle = true
  | .didCloseSocketStream => s.handle = true
  | _ => True

/-- Every event of the sequence is allowed when it happens. -/
def AllowedRun (socket : SocketStreamHandle) (s : WebSocketChannel) : List Event → Prop
  | [] => True
  | event :: events => event.Allowed s ∧ AllowedRun socket (s.step socket event) events

end WebSocketChannel

end WebSockets
end WebKit
