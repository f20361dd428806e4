import WebKit.Library.LittleEndian

/-!
# A connection over a unix socket

A message goes over the socket as a `MessageInfo`, an `AttachmentInfo` for each attachment, and the
body; the file descriptors of the attachments go beside the bytes.  A body that makes the message too
long goes through shared memory, whose descriptor is one attachment more, the last.

The receiver has one buffer for bytes and one array for descriptors.  `processMessage` takes the
first message off both.  Sizes are those of a 64-bit platform, and the bytes between the fields of a
structure, which nobody reads, are zero.

A descriptor is the number that the receiver's kernel gives it.  What the memory behind a descriptor
shows when it is mapped is the parameter `mmap`.
-/

namespace WebKit
namespace CoreIPC

open LittleEndian

abbrev Bytes := List UInt8

def messageMaxSize : ℕ := 4096

def attachmentMaxAmount : ℕ := 255

def sizeOfMessageInfo : ℕ := 24

def sizeOfAttachmentInfo : ℕ := 24

def sizeOfInt : ℕ := 4

/-- Numbers of type `size_t` are below this one. -/
def sizeLimit : ℕ := 2 ^ 64

/-! ## Attachments -/

/-- An `int`; `-1` is no descriptor. -/
abbrev FileDescriptor := BitVec 32

def noFileDescriptor : FileDescriptor := -1#32

inductive Attachment where
  | uninitialized
  | socket (fileDescriptor : FileDescriptor)
  | mappedMemory (fileDescriptor : FileDescriptor) (size : BitVec 64)
  deriving DecidableEq, Repr

namespace Attachment

def uninitializedType : BitVec 32 := 0#32
def socketType : BitVec 32 := 1#32
def mappedMemoryType : BitVec 32 := 2#32

def type : Attachment → BitVec 32
  | uninitialized => uninitializedType
  | socket _ => socketType
  | mappedMemory _ _ => mappedMemoryType

def fileDescriptor : Attachment → FileDescriptor
  | uninitialized => noFileDescriptor
  | socket fd => fd
  | mappedMemory fd _ => fd

def size : Attachment → BitVec 64
  | mappedMemory _ size => size
  | _ => 0#64

end Attachment

structure AttachmentInfo where
  type : BitVec 32
  size : BitVec 64
  isNull : Bool
  deriving DecidableEq

namespace AttachmentInfo

/-- How the structure lies in memory. -/
def toBytes (info : AttachmentInfo) : Bytes :=
  (bytes 4 info.type.toNat ++ bytes 4 0) ++ (bytes 8 info.size.toNat
    ++ (bytes 1 info.isNull.toNat ++ bytes 7 0))

def ofBytes (b : Bytes) : AttachmentInfo where
  type := BitVec.ofNat 32 (value (b.take 4))
  size := BitVec.ofNat 64 (value ((b.drop 8).take 8))
  isNull := value ((b.drop 16).take 1) ≠ 0

end AttachmentInfo

/-! ## Messages -/

/-- The most significant bit of a message ID is zero. -/
abbrev MessageID := { n : BitVec 32 // n.msb = false }

/-- `MessageID::fromInt`, which strips the most significant bit. -/
def MessageID.fromInt (n : BitVec 32) : MessageID :=
  ⟨n &&& 0x7fffffff#32, by
    rw [BitVec.msb_and, show (0x7fffffff#32).msb = false by decide, Bool.and_false]⟩

def messageBodyIsOOL : BitVec 32 := 1#32 <<< 31

structure MessageInfo where
  messageID : BitVec 32
  bodySize : BitVec 64
  attachmentCount : BitVec 64
  deriving DecidableEq

namespace MessageInfo

variable (info : MessageInfo)

def setMessageBodyOOL : MessageInfo :=
  { info with
    messageID := info.messageID ||| messageBodyIsOOL
    attachmentCount := info.attachmentCount + 1 }

def isMessageBodyOOL : Bool := info.messageID &&& messageBodyIsOOL ≠ 0#32

/-- `messageID()`, with the flag taken off. -/
def getMessageID : MessageID := MessageID.fromInt (info.messageID &&& ~~~messageBodyIsOOL)

def toBytes : Bytes :=
  (bytes 4 info.messageID.toNat ++ bytes 4 0) ++ (bytes 8 info.bodySize.toNat
    ++ bytes 8 info.attachmentCount.toNat)

def ofBytes (b : Bytes) : MessageInfo where
  messageID := BitVec.ofNat 32 (value (b.take 4))
  bodySize := BitVec.ofNat 64 (value ((b.drop 8).take 8))
  attachmentCount := BitVec.ofNat 64 (value ((b.drop 16).take 8))

end MessageInfo

/-- A message with its body in a buffer, as the sender gives it and as the receiver dispatches it. -/
structure Message where
  messageID : MessageID
  body : Bytes
  attachments : List Attachment
  deriving DecidableEq

/-! ## Sending -/

/-- What `sendmsg` puts on the socket. -/
structure Packet where
  data : Bytes
  fileDescriptors : List FileDescriptor
  deriving DecidableEq

/-- The info of an attachment on its way. -/
def attachmentInfo (a : Attachment) : AttachmentInfo where
  type := a.type
  size := a.size
  isNull := a.type ≠ Attachment.uninitializedType ∧ a.fileDescriptor = noFileDescriptor

def attachmentFileDescriptors (attachments : List Attachment) : List FileDescriptor :=
  (attachments.map (·.fileDescriptor)).filter (· ≠ noFileDescriptor)

def messageSizeWithBodyInline (m : Message) : ℕ :=
  sizeOfMessageInfo + m.attachments.length * sizeOfAttachmentInfo + m.body.length

/-- The body goes through shared memory. -/
def bodyIsOOL (m : Message) : Bool :=
  messageSizeWithBodyInline m > messageMaxSize ∧ m.body.length ≠ 0

/-- `sharedMemory` is the descriptor of the memory created for the body, if it could be. -/
def sendOutgoingMessage (m : Message) (sharedMemory : Option FileDescriptor) : Option Packet :=
  if m.attachments.length > attachmentMaxAmount - 1 then none
  else
    let messageInfo : MessageInfo :=
      { messageID := m.messageID.val
        bodySize := BitVec.ofNat 64 m.body.length
        attachmentCount := BitVec.ofNat 64 m.attachments.length }
    if bodyIsOOL m then
      match sharedMemory with
      | none => none
      | some fd =>
        let attachments := m.attachments ++ [.mappedMemory fd (BitVec.ofNat 64 m.body.length)]
        some
          { data := messageInfo.setMessageBodyOOL.toBytes
              ++ (attachments.map attachmentInfo).flatMap AttachmentInfo.toBytes
            fileDescriptors := attachmentFileDescriptors attachments }
    else
      some
        { data := messageInfo.toBytes
            ++ ((m.attachments.map attachmentInfo).flatMap AttachmentInfo.toBytes ++ m.body)
          fileDescriptors := attachmentFileDescriptors m.attachments }

/-! ## Receiving -/

/-- `readBuffer` is the first `m_readBufferSize` bytes of the buffer; `fileDescriptors` is the whole
array, of which the first `fileDescriptorsSize` elements were received. -/
structure Connection where
  readBuffer : Bytes := []
  fileDescriptors : List FileDescriptor := List.replicate attachmentMaxAmount 0#32
  fileDescriptorsSize : ℕ := 0
  deriving DecidableEq

/-- How a call of `processMessage` ends. -/
inductive ProcessResult where
  /-- It returns false before it takes anything. -/
  | incomplete
  /-- It returns false because an attachment cannot be what it must be. -/
  | failed
  /-- It dispatches a message and returns true. -/
  | processed (m : Message) (c : Connection)
  /-- It reads or writes outside an array. -/
  | undefined
  deriving DecidableEq

/-- The array of `AttachmentInfo` copied out of the buffer. -/
def readAttachmentInfo : ℕ → Bytes → List AttachmentInfo
  | 0, _ => []
  | n + 1, b =>
    AttachmentInfo.ofBytes b :: readAttachmentInfo n (b.drop sizeOfAttachmentInfo)

/-- The infos that stand for a descriptor. -/
def hasFileDescriptor (info : AttachmentInfo) : Bool :=
  (info.type = Attachment.mappedMemoryType || info.type = Attachment.socketType) && !info.isNull

/-- The loop that takes a descriptor for each attachment that has one, from `fdIndex` on; `none` is
a read behind the array. -/
def takeAttachments (fileDescriptors : List FileDescriptor) :
    List AttachmentInfo → ℕ → Option (List Attachment)
  | [], _ => some []
  | info :: rest, fdIndex =>
    if info.type = Attachment.mappedMemoryType then
      if info.isNull then
        (takeAttachments fileDescriptors rest fdIndex).map
          (.mappedMemory noFileDescriptor info.size :: ·)
      else match fileDescriptors[fdIndex]? with
        | none => none
        | some fd => (takeAttachments fileDescriptors rest (fdIndex + 1)).map
            (.mappedMemory fd info.size :: ·)
    else if info.type = Attachment.socketType then
      if info.isNull then
        (takeAttachments fileDescriptors rest fdIndex).map (.socket noFileDescriptor :: ·)
      else match fileDescriptors[fdIndex]? with
        | none => none
        | some fd => (takeAttachments fileDescriptors rest (fdIndex + 1)).map (.socket fd :: ·)
    else if info.type = Attachment.uninitializedType then
      (takeAttachments fileDescriptors rest fdIndex).map (.uninitialized :: ·)
    else takeAttachments fileDescriptors rest fdIndex

/-- An array of `int` as the bytes it consists of, and back. -/
def intBytes (ints : List FileDescriptor) : Bytes := ints.flatMap fun fd => bytes 4 fd.toNat

def bytesInts : ℕ → Bytes → List FileDescriptor
  | 0, _ => []
  | n + 1, b => BitVec.ofNat 32 (value (b.take 4)) :: bytesInts n (b.drop 4)

/-- `memmove(ints, ints + from, n)`: the distance counts elements, the length `n` bytes. -/
def moveInts (ints : List FileDescriptor) (source n : ℕ) : Option (List FileDescriptor) :=
  if sizeOfInt * source + n ≤ sizeOfInt * ints.length then
    let b := intBytes ints
    some (bytesInts ints.length (((b.drop (sizeOfInt * source)).take n) ++ b.drop n))
  else none

/-- The descriptors left after a message that had `count` of them.  `fileDescriptorsLength` is a
number of bytes and is used as one of elements as well; the subtraction is that of `size_t`. -/
def removeFileDescriptors (c : Connection) (count : ℕ) : Option Connection :=
  if count = 0 then some c
  else if c.fileDescriptorsSize > count then
    let fileDescriptorsLength := count * sizeOfInt
    let rest := (c.fileDescriptorsSize + (sizeLimit - fileDescriptorsLength)) % sizeLimit
    (moveInts c.fileDescriptors fileDescriptorsLength rest).map fun moved =>
      { c with fileDescriptors := moved, fileDescriptorsSize := rest }
  else some { c with fileDescriptorsSize := 0 }

/-- The end of `processMessage`: the message is dispatched and taken off the buffers. -/
def finishMessage (c : Connection) (m : Message) (messageLength count : ℕ) : ProcessResult :=
  match removeFileDescriptors { c with readBuffer := c.readBuffer.drop messageLength } count with
  | none => .undefined
  | some c => .processed m c

/-- `sizeof(MessageInfo) + attachmentCount() * sizeof(AttachmentInfo) + bodySize`. -/
def messageLength (info : MessageInfo) : ℕ :=
  (sizeOfMessageInfo + info.attachmentCount.toNat * sizeOfAttachmentInfo
    + if info.isMessageBodyOOL then 0 else info.bodySize.toNat) % sizeLimit

def processMessage (mmap : FileDescriptor → BitVec 64 → Option Bytes) (c : Connection) :
    ProcessResult :=
  if c.readBuffer.length < sizeOfMessageInfo then .incomplete
  else
    let info := MessageInfo.ofBytes c.readBuffer
    if c.readBuffer.length < messageLength info then .incomplete
    else
      let messageData := c.readBuffer.drop sizeOfMessageInfo
      let infos := readAttachmentInfo info.attachmentCount.toNat messageData
      let messageData := messageData.drop (info.attachmentCount.toNat * sizeOfAttachmentInfo)
      let attachmentFileDescriptorCount := infos.countP hasFileDescriptor
      if info.isMessageBodyOOL then
        match takeAttachments c.fileDescriptors infos.dropLast 0, infos.getLast? with
        | some attachments, some bodyInfo =>
          if bodyInfo.isNull then .failed
          else if attachmentFileDescriptorCount = 0 then .undefined
          else match c.fileDescriptors[attachmentFileDescriptorCount - 1]? with
            | none => .undefined
            | some fd => match mmap fd bodyInfo.size with
              | none => .failed
              | some memory => finishMessage c
                  { messageID := info.getMessageID
                    body := memory.take info.bodySize.toNat
                    attachments } (messageLength info) attachmentFileDescriptorCount
        | _, _ => .undefined
      else
        match takeAttachments c.fileDescriptors infos 0 with
        | none => .undefined
        | some attachments => finishMessage c
            { messageID := info.getMessageID
              body := messageData.take info.bodySize.toNat
              attachments } (messageLength info) attachmentFileDescriptorCount

/-- `readBytesFromSocket` appends the bytes and writes the descriptors behind those there are;
`none` is a write behind the array. -/
def readBytesFromSocket (c : Connection) (b : Bytes) (fds : List FileDescriptor) :
    Option Connection :=
  if c.fileDescriptorsSize + fds.length ≤ c.fileDescriptors.length then
    some
      { readBuffer := c.readBuffer ++ b
        fileDescriptors := c.fileDescriptors.take c.fileDescriptorsSize ++ fds
          ++ c.fileDescriptors.drop (c.fileDescriptorsSize + fds.length)
        fileDescriptorsSize := c.fileDescriptorsSize + fds.length }
  else none

end CoreIPC
end WebKit
