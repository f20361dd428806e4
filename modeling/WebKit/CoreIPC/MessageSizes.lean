import WebKit.CoreIPC.MessageStream

/-!
# The size of messages

A message goes through the receiver's buffer as one piece, so that it has to be at most
`messageMaxSize` long.  What keeps it short is that a body goes through shared memory when it makes
the message too long; but the infos of the attachments stay, one more of them than before, and
nothing but the number of attachments bounds them.  The assertion that they fit counts a `size_t` for
each of them, a third of what they take.
-/

namespace WebKit

open List
namespace CoreIPC

variable {m : Message} {sharedMemory : Option FileDescriptor} {p : Packet}

/-- What a message takes on the socket. -/
theorem length_data_of_send (h : sendOutgoingMessage m sharedMemory = some p) :
    p.data.length = if bodyIsOOL m then
        sizeOfMessageInfo + (m.attachments.length + 1) * sizeOfAttachmentInfo
      else messageSizeWithBodyInline m := by
  unfold sendOutgoingMessage at h
  split at h
  · cases h
  · split at h
    · rename_i hool
      rw [if_pos hool]
      cases sharedMemory with
      | none => cases h
      | some fd =>
        obtain rfl := Option.some.inj h
        rw [length_append, MessageInfo.length_toBytes, length_flatMap_toBytes,
          length_map, length_append, length_singleton]
    · rename_i hinline
      rw [if_neg hinline]
      obtain rfl := Option.some.inj h
      rw [length_append, MessageInfo.length_toBytes, length_append,
        length_flatMap_toBytes, length_map, messageSizeWithBodyInline, Nat.add_assoc]

/-- The messages that fit into the receiver's buffer: up to 168 attachments and any body, or 169
attachments and a body that goes inline behind their infos. -/
theorem length_data_le_iff (h : sendOutgoingMessage m sharedMemory = some p) :
    p.data.length ≤ messageMaxSize ↔
      m.attachments.length ≤ 168 ∨ m.attachments.length = 169 ∧ m.body.length ≤ 16 := by
  rw [length_data_of_send h]
  unfold bodyIsOOL messageSizeWithBodyInline messageMaxSize sizeOfMessageInfo sizeOfAttachmentInfo
  split
  · rename_i hool
    rw [decide_eq_true_eq] at hool
    omega
  · rename_i hinline
    rw [decide_eq_true_eq] at hinline
    by_cases hlong : 24 + m.attachments.length * 24 + m.body.length > 4096
    · omega
    · omega

/-- A message of few attachments whose body stays inline is sent. -/
theorem exists_send_of_inline (hcount : m.attachments.length ≤ attachmentMaxAmount - 1)
    (hinline : bodyIsOOL m = false) : ∃ p, sendOutgoingMessage m none = some p := by
  unfold sendOutgoingMessage
  rw [if_neg (not_lt.mpr hcount), hinline]
  exact ⟨_, rfl⟩

/-- Attachments that stand for nothing, and a body of zeroes. -/
def plainMessage (attachmentCount bodySize : ℕ) : Message :=
  ⟨MessageID.fromInt 0, List.replicate bodySize 0, List.replicate attachmentCount .uninitialized⟩

theorem exists_send_plainMessage (hcount : attachmentCount ≤ 254)
    (hinline : 24 + attachmentCount * 24 + bodySize ≤ 4096 ∨ bodySize = 0) :
    bodyIsOOL (plainMessage attachmentCount bodySize) = false ∧
      ∃ p, sendOutgoingMessage (plainMessage attachmentCount bodySize) none = some p := by
  have hool : bodyIsOOL (plainMessage attachmentCount bodySize) = false := by
    simp only [bodyIsOOL, messageSizeWithBodyInline, plainMessage, length_replicate,
      sizeOfMessageInfo, sizeOfAttachmentInfo, messageMaxSize, decide_eq_false_iff_not]
    omega
  refine ⟨hool, exists_send_of_inline ?_ hool⟩
  simpa [plainMessage, attachmentMaxAmount] using hcount

/-- A message of 169 attachments fits with a body of 16 bytes. -/
theorem length_data_le_iff_169 : ∃ p, sendOutgoingMessage (plainMessage 169 16) none = some p ∧
    (p.data.length ≤ messageMaxSize ↔ (plainMessage 169 16).attachments.length ≤ 168 ∨
      (plainMessage 169 16).attachments.length = 169 ∧ (plainMessage 169 16).body.length ≤ 16) := by
  obtain ⟨-, p, hp⟩ := exists_send_plainMessage (by decide : 169 ≤ 254)
    (Or.inl (by decide : 24 + 169 * 24 + 16 ≤ 4096))
  exact ⟨p, hp, length_data_le_iff hp⟩

/-- 170 attachments are sent, and take 4104 bytes. -/
theorem not_length_data_le_170 : (plainMessage 170 0).attachments.length ≤ attachmentMaxAmount - 1 ∧
      ∃ p, sendOutgoingMessage (plainMessage 170 0) none = some p ∧
        ¬ p.data.length ≤ messageMaxSize := by
  obtain ⟨hool, p, hp⟩ := exists_send_plainMessage (by decide : 170 ≤ 254) (Or.inr (rfl : 0 = 0))
  have hcount : (plainMessage 170 0).attachments.length = 170 := length_replicate
  refine ⟨?_, p, hp, ?_⟩
  · rw [hcount]
    decide
  · rw [length_data_of_send hp, hool, messageSizeWithBodyInline, hcount]
    decide

end CoreIPC
end WebKit
