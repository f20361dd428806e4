import WebKit.CoreIPC.Connection

/-!
# One message on the wire

A message lies in the buffer as it was sent: the structures are read back field by field, the length
that the receiver computes is the length that was sent, and the loop over the attachment infos takes
the descriptors in the order in which the sender put them.  So `processMessage` dispatches a message
that is in the buffer completely, with its descriptors at the front of the array, and leaves one alone
of which bytes are missing.
-/

namespace WebKit

open List
namespace CoreIPC

open LittleEndian

/-! ## The structures in the buffer -/

section Layout

theorem MessageInfo.length_toBytes (info : MessageInfo) :
    info.toBytes.length = sizeOfMessageInfo := by
  unfold toBytes
  simp only [length_append, length_bytes]
  rfl

theorem AttachmentInfo.length_toBytes (info : AttachmentInfo) :
    info.toBytes.length = sizeOfAttachmentInfo := by
  unfold toBytes
  simp only [length_append, length_bytes]
  rfl

/-- What is read where a structure was written. -/
theorem MessageInfo.ofBytes_toBytes_append (info : MessageInfo) (rest : Bytes) :
    MessageInfo.ofBytes (info.toBytes ++ rest) = info := by
  have hid : (info.toBytes ++ rest).take 4 = bytes 4 info.messageID.toNat := by
    unfold toBytes
    rw [append_assoc, append_assoc]
    exact take_left' (length_bytes _ _)
  have hdrop : (info.toBytes ++ rest).drop 8
      = bytes 8 info.bodySize.toNat ++ (bytes 8 info.attachmentCount.toNat ++ rest) := by
    unfold toBytes
    rw [append_assoc, append_assoc (bytes 8 _)]
    refine drop_left' ?_
    rw [length_append, length_bytes, length_bytes]
  have hdrop' : (info.toBytes ++ rest).drop 16
      = bytes 8 info.attachmentCount.toNat ++ rest := by
    rw [show (16 : ℕ) = 8 + 8 from rfl, ← drop_drop, hdrop]
    exact drop_left' (length_bytes _ _)
  unfold ofBytes
  rw [hid, hdrop, hdrop', take_left' (length_bytes _ _), take_left' (length_bytes _ _),
    ofNat_value_bytes _ (by norm_num), ofNat_value_bytes _ (by norm_num),
    ofNat_value_bytes _ (by norm_num)]

theorem AttachmentInfo.ofBytes_toBytes_append (info : AttachmentInfo) (rest : Bytes) :
    AttachmentInfo.ofBytes (info.toBytes ++ rest) = info := by
  have htype : (info.toBytes ++ rest).take 4 = bytes 4 info.type.toNat := by
    unfold toBytes
    rw [append_assoc, append_assoc]
    exact take_left' (length_bytes _ _)
  have hdrop : (info.toBytes ++ rest).drop 8
      = bytes 8 info.size.toNat ++ (bytes 1 info.isNull.toNat ++ (bytes 7 0 ++ rest)) := by
    unfold toBytes
    simp only [append_assoc]
    rw [← append_assoc]
    refine drop_left' ?_
    rw [length_append, length_bytes, length_bytes]
  have hdrop' : (info.toBytes ++ rest).drop 16
      = bytes 1 info.isNull.toNat ++ (bytes 7 0 ++ rest) := by
    rw [show (16 : ℕ) = 8 + 8 from rfl, ← drop_drop, hdrop]
    exact drop_left' (length_bytes _ _)
  have hnull : decide (value (bytes 1 info.isNull.toNat) ≠ 0) = info.isNull := by
    cases info.isNull <;> decide
  unfold ofBytes
  rw [htype, hdrop, hdrop', take_left' (length_bytes _ _), take_left' (length_bytes _ _),
    ofNat_value_bytes _ (by norm_num), ofNat_value_bytes _ (by norm_num), hnull]

/-- The array of infos is read as it was written. -/
theorem readAttachmentInfo_append (infos : List AttachmentInfo) (rest : Bytes) :
    readAttachmentInfo infos.length (infos.flatMap AttachmentInfo.toBytes ++ rest) = infos := by
  induction infos with
  | nil => rfl
  | cons info infos ih =>
    rw [flatMap_cons, append_assoc, length_cons, readAttachmentInfo,
      AttachmentInfo.ofBytes_toBytes_append, drop_left' info.length_toBytes, ih]

theorem length_flatMap_toBytes (infos : List AttachmentInfo) :
    (infos.flatMap AttachmentInfo.toBytes).length = infos.length * sizeOfAttachmentInfo := by
  induction infos with
  | nil => rfl
  | cons info infos ih =>
    rw [flatMap_cons, length_append, ih, info.length_toBytes, length_cons,
      Nat.succ_mul, Nat.add_comm]

end Layout

/-! ## The descriptors of a message -/

section Attachments

variable {attachments : List Attachment}

theorem attachmentFileDescriptors_append (as bs : List Attachment) :
    attachmentFileDescriptors (as ++ bs)
      = attachmentFileDescriptors as ++ attachmentFileDescriptors bs := by
  unfold attachmentFileDescriptors
  rw [map_append, filter_append]

theorem attachmentFileDescriptors_cons (a : Attachment) (as : List Attachment) :
    attachmentFileDescriptors (a :: as) = (if a.fileDescriptor = noFileDescriptor then
      attachmentFileDescriptors as else a.fileDescriptor :: attachmentFileDescriptors as) := by
  split
  · rename_i hnone
    exact filter_cons_of_neg (by simp [hnone])
  · rename_i hsome
    exact filter_cons_of_pos (by simp [hsome])

theorem isNull_socket (fd : FileDescriptor) :
    (attachmentInfo (.socket fd)).isNull = decide (fd = noFileDescriptor) :=
  decide_eq_decide.mpr (and_iff_right (show Attachment.socketType ≠ _ by decide))

theorem isNull_mappedMemory (fd : FileDescriptor) (size : BitVec 64) :
    (attachmentInfo (.mappedMemory fd size)).isNull = decide (fd = noFileDescriptor) :=
  decide_eq_decide.mpr (and_iff_right (show Attachment.mappedMemoryType ≠ _ by decide))

/-- The infos that stand for a descriptor are those of the attachments that have one. -/
theorem hasFileDescriptor_attachmentInfo (a : Attachment) :
    hasFileDescriptor (attachmentInfo a) = decide (a.fileDescriptor ≠ noFileDescriptor) := by
  unfold hasFileDescriptor
  cases a with
  | uninitialized => decide
  | socket fd =>
    rw [isNull_socket]
    show ((false || true) && !decide (fd = noFileDescriptor)) = decide (fd ≠ noFileDescriptor)
    rw [Bool.or_true, Bool.true_and, decide_not]
  | mappedMemory fd size =>
    rw [isNull_mappedMemory]
    show ((true || false) && !decide (fd = noFileDescriptor)) = decide (fd ≠ noFileDescriptor)
    rw [Bool.or_false, Bool.true_and, decide_not]

theorem countP_attachmentInfo (attachments : List Attachment) :
    (attachments.map attachmentInfo).countP hasFileDescriptor
      = (attachmentFileDescriptors attachments).length := by
  induction attachments with
  | nil => rfl
  | cons a as ih =>
    rw [map_cons, attachmentFileDescriptors_cons, countP_cons, ih]
    have hinfo := hasFileDescriptor_attachmentInfo a
    by_cases hnone : a.fileDescriptor = noFileDescriptor
    · rw [if_pos hnone, hinfo, if_neg (by rw [decide_eq_true_eq]; exact not_not_intro hnone)]
      rfl
    · rw [if_neg hnone, hinfo, if_pos (decide_eq_true hnone)]
      rfl

variable {a : Attachment} {fileDescriptors : List FileDescriptor} {fdIndex : ℕ}

/-- One round of the loop for an attachment without descriptor. -/
theorem takeAttachments_null (hnone : a.fileDescriptor = noFileDescriptor)
    (fileDescriptors : List FileDescriptor) (infos : List AttachmentInfo) (fdIndex : ℕ) :
    takeAttachments fileDescriptors (attachmentInfo a :: infos) fdIndex
      = (takeAttachments fileDescriptors infos fdIndex).map (a :: ·) := by
  cases a with
  | uninitialized => rfl
  | socket fd =>
    obtain rfl : fd = noFileDescriptor := hnone
    rfl
  | mappedMemory fd size =>
    obtain rfl : fd = noFileDescriptor := hnone
    rfl

/-- One round of the loop for an attachment with a descriptor. -/
theorem takeAttachments_some (hsome : a.fileDescriptor ≠ noFileDescriptor)
    (infos : List AttachmentInfo)
    (hfd : fileDescriptors[fdIndex]? = some a.fileDescriptor) :
    takeAttachments fileDescriptors (attachmentInfo a :: infos) fdIndex
      = (takeAttachments fileDescriptors infos (fdIndex + 1)).map (a :: ·) := by
  rw [takeAttachments, hfd]
  cases a with
  | uninitialized => exact absurd rfl hsome
  | socket fd =>
    have hfd : fd ≠ noFileDescriptor := hsome
    rw [isNull_socket, decide_eq_false hfd]
    rfl
  | mappedMemory fd size =>
    have hfd : fd ≠ noFileDescriptor := hsome
    rw [isNull_mappedMemory, decide_eq_false hfd]
    rfl

/-- The loop gives each attachment its own descriptor when they stand in order from `fdIndex` on. -/
theorem takeAttachments_eq
    (attachments : List Attachment) (rest : List FileDescriptor)
    (hfds : fileDescriptors.drop fdIndex = attachmentFileDescriptors attachments ++ rest) :
    takeAttachments fileDescriptors (attachments.map attachmentInfo) fdIndex
      = some attachments := by
  induction attachments generalizing fdIndex with
  | nil => rfl
  | cons a as ih =>
    rw [attachmentFileDescriptors_cons] at hfds
    by_cases hnone : a.fileDescriptor = noFileDescriptor
    · rw [if_pos hnone] at hfds
      rw [map_cons, takeAttachments_null hnone, ih hfds, Option.map_some]
    · rw [if_neg hnone, cons_append] at hfds
      have hfd : fileDescriptors[fdIndex]? = some a.fileDescriptor := by
        rw [← Nat.add_zero fdIndex, ← List.getElem?_drop, hfds, List.getElem?_cons_zero]
      have hrest : fileDescriptors.drop (fdIndex + 1)
          = attachmentFileDescriptors as ++ rest := by
        rw [← drop_drop, hfds, drop_succ_cons, drop_zero]
      rw [map_cons, takeAttachments_some hnone _ hfd, ih hrest, Option.map_some]

end Attachments

/-! ## The flag in the message ID -/

section MessageID

theorem getLsbD_messageBodyIsOOL : ∀ i < 32, messageBodyIsOOL.getLsbD i = decide (i = 31) := by
  decide

theorem getLsbD_msb {n : BitVec 32} (hn : n.msb = false) : n.getLsbD 31 = false := by
  rw [BitVec.msb_eq_getLsbD_last] at hn
  exact hn

theorem and_messageBodyIsOOL (hn : n.msb = false) :
    n &&& messageBodyIsOOL = 0#32 := by
  refine BitVec.eq_of_getLsbD_eq fun i hi => ?_
  rw [BitVec.getLsbD_and, getLsbD_messageBodyIsOOL i hi, BitVec.getLsbD_zero]
  by_cases hlast : i = 31
  · rw [hlast, getLsbD_msb hn, Bool.false_and]
  · rw [decide_eq_false hlast, Bool.and_false]

theorem or_and_messageBodyIsOOL (n : BitVec 32) :
    (n ||| messageBodyIsOOL) &&& messageBodyIsOOL = messageBodyIsOOL := by
  refine BitVec.eq_of_getLsbD_eq fun i hi => ?_
  rw [BitVec.getLsbD_and, BitVec.getLsbD_or]
  cases messageBodyIsOOL.getLsbD i <;> simp

/-- The flag comes off, and what remains is the ID. -/
theorem fromInt_and_not (hn : n.msb = false) (hm : m = n ∨ m = n ||| messageBodyIsOOL) :
    MessageID.fromInt (m &&& ~~~messageBodyIsOOL) = ⟨n, hn⟩ := by
  refine Subtype.ext (BitVec.eq_of_getLsbD_eq fun i hi => ?_)
  show ((m &&& ~~~messageBodyIsOOL) &&& 0x7fffffff#32).getLsbD i = n.getLsbD i
  have hmask : ∀ i < 32, (0x7fffffff#32).getLsbD i = decide (i ≠ 31) := by decide
  rw [BitVec.getLsbD_and, BitVec.getLsbD_and, BitVec.getLsbD_not, hmask i hi,
    getLsbD_messageBodyIsOOL i hi]
  by_cases hlast : i = 31
  · rw [hlast, getLsbD_msb hn]
    simp
  · have hbit : m.getLsbD i = n.getLsbD i := by
      rcases hm with rfl | rfl
      · rfl
      · rw [BitVec.getLsbD_or, getLsbD_messageBodyIsOOL i hi, decide_eq_false hlast, Bool.or_false]
    rw [hbit, decide_eq_false hlast, decide_eq_true (show i ≠ 31 from hlast), decide_eq_true hi]
    simp

end MessageID

/-! ## One message -/

/-- A message that `sendOutgoingMessage` accepted, with the descriptor of the memory it may have
created for the body. -/
structure Sent where
  message : Message
  sharedMemory : FileDescriptor
  packet : Packet
  accepted : sendOutgoingMessage message (some sharedMemory) = some packet
  isOpen : sharedMemory ≠ noFileDescriptor
  bodySize_lt : message.body.length < sizeLimit

namespace Sent

variable (s : Sent)

/-- The body, if it goes through shared memory, is in the memory that the descriptor stands for. -/
def Mapped (mmap : FileDescriptor → BitVec 64 → Option Bytes) : Prop :=
  bodyIsOOL s.message = true →
    mmap s.sharedMemory (BitVec.ofNat 64 s.message.body.length) = some s.message.body

/-- The attachments on the wire. -/
def attachments : List Attachment :=
  if bodyIsOOL s.message then s.message.attachments
    ++ [.mappedMemory s.sharedMemory (BitVec.ofNat 64 s.message.body.length)]
  else s.message.attachments

/-- The body on the wire. -/
def inlineBody : Bytes := if bodyIsOOL s.message then [] else s.message.body

def info : MessageInfo :=
  let messageInfo : MessageInfo :=
    { messageID := s.message.messageID.val
      bodySize := BitVec.ofNat 64 s.message.body.length
      attachmentCount := BitVec.ofNat 64 s.message.attachments.length }
  if bodyIsOOL s.message then messageInfo.setMessageBodyOOL else messageInfo

theorem length_attachments_le : s.message.attachments.length ≤ attachmentMaxAmount - 1 := by
  have h := s.accepted
  unfold sendOutgoingMessage at h
  split at h
  · cases h
  · rename_i hle
    exact Nat.le_of_not_lt hle

/-- What is on the wire. -/
theorem packet_eq : s.packet =
    { data := s.info.toBytes
        ++ ((s.attachments.map attachmentInfo).flatMap AttachmentInfo.toBytes ++ s.inlineBody)
      fileDescriptors := attachmentFileDescriptors s.attachments } := by
  have h := s.accepted
  unfold sendOutgoingMessage at h
  rw [if_neg (not_lt.mpr s.length_attachments_le)] at h
  unfold info attachments inlineBody
  by_cases hool : bodyIsOOL s.message = true
  · simp only [if_pos hool] at h ⊢
    rw [append_nil]
    exact (Option.some.inj h).symm
  · simp only [if_neg hool] at h ⊢
    exact (Option.some.inj h).symm

theorem isMessageBodyOOL_info : s.info.isMessageBodyOOL = bodyIsOOL s.message := by
  have hid : ∀ n : BitVec 32, n = s.info.messageID → n &&& messageBodyIsOOL
      = (if bodyIsOOL s.message then messageBodyIsOOL else 0#32) := by
    rintro n rfl
    unfold info
    split
    · exact or_and_messageBodyIsOOL _
    · exact and_messageBodyIsOOL s.message.messageID.2
  unfold MessageInfo.isMessageBodyOOL
  rw [hid _ rfl]
  cases bodyIsOOL s.message <;> decide

theorem getMessageID_info : s.info.getMessageID = s.message.messageID := by
  unfold info MessageInfo.getMessageID
  split
  · exact fromInt_and_not s.message.messageID.2 (.inr rfl)
  · exact fromInt_and_not s.message.messageID.2 (.inl rfl)

theorem bodySize_info : s.info.bodySize.toNat = s.message.body.length := by
  have hsize : s.info.bodySize = BitVec.ofNat 64 s.message.body.length := by
    unfold info
    split <;> rfl
  rw [hsize]
  exact Nat.mod_eq_of_lt s.bodySize_lt

theorem attachmentCount_info : s.info.attachmentCount.toNat = s.attachments.length := by
  have hle := s.length_attachments_le
  unfold attachmentMaxAmount at hle
  unfold info attachments
  split
  · rw [length_append, length_singleton]
    show (BitVec.ofNat 64 s.message.attachments.length + 1).toNat = _
    rw [BitVec.toNat_add, BitVec.toNat_ofNat]
    have hone : (1 : BitVec 64).toNat = 1 := rfl
    omega
  · rw [BitVec.toNat_ofNat]
    omega

theorem length_packet_data : s.packet.data.length = sizeOfMessageInfo
    + (s.attachments.length * sizeOfAttachmentInfo + s.inlineBody.length) := by
  rw [s.packet_eq]
  rw [length_append, length_append, s.info.length_toBytes, length_flatMap_toBytes, length_map]

theorem length_attachments_wire : s.attachments.length ≤ attachmentMaxAmount := by
  have hle := s.length_attachments_le
  unfold attachmentMaxAmount at hle ⊢
  unfold attachments
  split
  · rw [length_append, length_singleton]
    omega
  · omega

theorem length_inlineBody : s.inlineBody.length ≤ messageMaxSize := by
  unfold inlineBody
  split
  · exact Nat.zero_le _
  · rename_i hinline
    unfold bodyIsOOL at hinline
    rw [decide_eq_true_eq, not_and, not_not] at hinline
    by_cases hlong : messageSizeWithBodyInline s.message > messageMaxSize
    · rw [hinline hlong]
      exact Nat.zero_le _
    · unfold messageSizeWithBodyInline at hlong
      omega

/-- The receiver computes the length that was sent. -/
theorem messageLength_info : messageLength s.info = s.packet.data.length := by
  have hcount := s.length_attachments_wire
  have hbody := s.length_inlineBody
  have hinline : (if s.info.isMessageBodyOOL then 0 else s.info.bodySize.toNat)
      = s.inlineBody.length := by
    rw [s.isMessageBodyOOL_info, s.bodySize_info]
    unfold inlineBody
    split <;> rfl
  unfold messageLength
  rw [hinline, s.attachmentCount_info, s.length_packet_data, Nat.add_assoc]
  refine Nat.mod_eq_of_lt ?_
  unfold attachmentMaxAmount at hcount
  unfold messageMaxSize at hbody
  unfold sizeOfMessageInfo sizeOfAttachmentInfo sizeLimit
  omega

/-- As soon as the head of a message is in the buffer, its length is known. -/
theorem messageLength_ofBytes (hb : b ++ rest = s.packet.data)
    (hlen : sizeOfMessageInfo ≤ b.length) : MessageInfo.ofBytes b = s.info := by
  rw [s.packet_eq] at hb
  have htake : b.take sizeOfMessageInfo = s.info.toBytes := by
    have happend : (b ++ rest).take sizeOfMessageInfo = b.take sizeOfMessageInfo :=
      take_append_of_le_length hlen
    rw [← happend, hb]
    exact take_left' s.info.length_toBytes
  rw [← take_append_drop sizeOfMessageInfo b, htake, MessageInfo.ofBytes_toBytes_append]

variable {mmap : FileDescriptor → BitVec 64 → Option Bytes} {c : Connection}

/-- A message of which something is missing stays in the buffer. -/
theorem processMessage_incomplete (hb : c.readBuffer ++ rest = s.packet.data)
    (hrest : rest ≠ []) : processMessage mmap c = .incomplete := by
  unfold processMessage
  split
  · rfl
  · rename_i hlen
    have hlen := Nat.le_of_not_lt hlen
    have hlt : c.readBuffer.length < s.packet.data.length := by
      rw [← hb, length_append]
      exact Nat.lt_add_of_pos_right (length_pos_iff.mpr hrest)
    simp only
    rw [s.messageLength_ofBytes hb hlen, s.messageLength_info, if_pos hlt]

/-- A message that is complete is dispatched with its own body and attachments. -/
theorem processMessage_complete (hb : c.readBuffer = s.packet.data ++ rest)
    (hfds : c.fileDescriptors = s.packet.fileDescriptors ++ others) (hmap : s.Mapped mmap) :
    processMessage mmap c
      = finishMessage c s.message s.packet.data.length s.packet.fileDescriptors.length := by
  have hlength : c.readBuffer.length = s.packet.data.length + rest.length := by
    rw [hb, length_append]
  have hdata := s.length_packet_data
  have hinfo : MessageInfo.ofBytes c.readBuffer = s.info := by
    rw [hb, s.packet_eq]
    simp only [append_assoc]
    exact MessageInfo.ofBytes_toBytes_append _ _
  have hmessageData : c.readBuffer.drop sizeOfMessageInfo
      = (s.attachments.map attachmentInfo).flatMap AttachmentInfo.toBytes
        ++ (s.inlineBody ++ rest) := by
    rw [hb, s.packet_eq]
    simp only [append_assoc]
    exact drop_left' s.info.length_toBytes
  have hinfos : readAttachmentInfo s.info.attachmentCount.toNat
      (c.readBuffer.drop sizeOfMessageInfo) = s.attachments.map attachmentInfo := by
    rw [hmessageData, s.attachmentCount_info, ← length_map (f := attachmentInfo)]
    exact readAttachmentInfo_append _ _
  have hbody : (c.readBuffer.drop sizeOfMessageInfo).drop
      (s.info.attachmentCount.toNat * sizeOfAttachmentInfo) = s.inlineBody ++ rest := by
    rw [hmessageData, s.attachmentCount_info]
    refine drop_left' ?_
    rw [length_flatMap_toBytes, length_map]
  have hfileDescriptors : s.packet.fileDescriptors = attachmentFileDescriptors s.attachments := by
    rw [s.packet_eq]
  rw [hfileDescriptors] at hfds ⊢
  unfold processMessage
  rw [if_neg (by omega)]
  simp only [hinfo]
  rw [s.messageLength_info, if_neg (by omega), hinfos, hbody, s.isMessageBodyOOL_info,
    s.getMessageID_info, countP_attachmentInfo, s.bodySize_info]
  by_cases hool : bodyIsOOL s.message = true
  · have hattachments : s.attachments = s.message.attachments
        ++ [.mappedMemory s.sharedMemory (BitVec.ofNat 64 s.message.body.length)] := if_pos hool
    have hopen : attachmentFileDescriptors
        [.mappedMemory s.sharedMemory (BitVec.ofNat 64 s.message.body.length)]
          = [s.sharedMemory] := by
      rw [attachmentFileDescriptors_cons]
      exact if_neg s.isOpen
    have hsplit : attachmentFileDescriptors s.attachments
        = attachmentFileDescriptors s.message.attachments ++ [s.sharedMemory] := by
      rw [hattachments, attachmentFileDescriptors_append, hopen]
    have htake : takeAttachments c.fileDescriptors (s.message.attachments.map attachmentInfo) 0
        = some s.message.attachments := by
      refine takeAttachments_eq _ (s.sharedMemory :: others) ?_
      rw [drop_zero, hfds, hsplit, append_assoc, singleton_append]
    have hlast : c.fileDescriptors[(attachmentFileDescriptors s.attachments).length - 1]?
        = some s.sharedMemory := by
      rw [hfds, hsplit, length_append, length_singleton, Nat.add_sub_cancel,
        append_assoc, List.getElem?_append_right le_rfl, Nat.sub_self]
      rfl
    have hcount : (attachmentFileDescriptors s.attachments).length ≠ 0 := by
      rw [hsplit, length_append]
      exact Nat.succ_ne_zero _
    have hnull : (attachmentInfo (.mappedMemory s.sharedMemory
        (BitVec.ofNat 64 s.message.body.length))).isNull = false := by
      rw [isNull_mappedMemory]
      exact decide_eq_false s.isOpen
    have hdropLast : (s.attachments.map attachmentInfo).dropLast
        = s.message.attachments.map attachmentInfo := by
      rw [hattachments, map_append, map_singleton, dropLast_concat]
    have hgetLast : (s.attachments.map attachmentInfo).getLast? = some (attachmentInfo
        (.mappedMemory s.sharedMemory (BitVec.ofNat 64 s.message.body.length))) := by
      rw [hattachments, map_append, map_singleton, List.getLast?_concat]
    rw [if_pos hool, hlast, hdropLast, hgetLast, htake]
    simp only
    rw [hnull, if_neg hcount]
    simp only [attachmentInfo, Attachment.size, hmap hool, take_length, Bool.false_eq_true,
      if_false]
  · have hattachments : s.attachments = s.message.attachments := if_neg hool
    have hinline : s.inlineBody = s.message.body := if_neg hool
    have htake : takeAttachments c.fileDescriptors (s.attachments.map attachmentInfo) 0
        = some s.attachments := by
      refine takeAttachments_eq _ others ?_
      rw [drop_zero, hfds]
    rw [if_neg hool, htake, hinline]
    rw [take_left, hattachments]

end Sent

end CoreIPC
end WebKit
