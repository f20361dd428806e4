import Mathlib.Data.List.Chain
import WebKit.WebSockets.FrameParsing

/-!
# What the outgoing queue is for

An `Outbox` holds the frames that wait to be sent, in order, and says which effects may come next: a
frame goes out only when it is first in line and, if it is a blob, once that blob has been loaded;
the handle is closed only once, when nothing waits and a Close frame has come in.  A list of effects
in which each one was allowed (`Outbox.Runs`) then has the properties of `Outbox.Orderly` at every
moment.
-/

namespace WebKit
namespace WebSockets

open WTF (UString utf8)
open OutgoingFrameQueueStatus

/-- Frames, the loads of the blobs among them, and the bytes given to the socket for each frame: the
frame's own opcode and data, masked with some key. -/
inductive Handed : List QueuedFrame → List (Blob × Bytes) → List Bytes → Prop
  | nil : Handed [] [] []
  | string {frames loads bytes} (opCode : OpCode) (data : UString) (key : Vector UInt8 4) :
      Handed frames loads bytes →
        Handed (frames ++ [.string opCode data]) loads (bytes ++ [frameBytes opCode key (utf8 data)])
  | vector {frames loads bytes} (opCode : OpCode) (data : Bytes) (key : Vector UInt8 4) :
      Handed frames loads bytes →
        Handed (frames ++ [.vector opCode data]) loads (bytes ++ [frameBytes opCode key data])
  | blob {frames loads bytes} (opCode : OpCode) (blob : Blob) (result : Bytes)
      (key : Vector UInt8 4) : Handed frames loads bytes →
        Handed (frames ++ [.blob opCode blob]) (loads ++ [(blob, result)])
          (bytes ++ [frameBytes opCode key result])

/-! ## Reading a log -/

variable (log : List Effect)

/-- The frames enqueued. -/
def enqueuedFrames : List QueuedFrame :=
  log.filterMap fun
    | .enqueued frame => some frame
    | _ => none

/-- The bytes given to the socket. -/
def sentBytes : List Bytes :=
  log.filterMap fun
    | .sent bytes => some bytes
    | _ => none

/-- The blobs loaded, with what was loaded for them. -/
def finishedLoads : List (Blob × Bytes) :=
  log.filterMap fun
    | .finishedLoading blob result => some (blob, result)
    | _ => none

/-- The values given to `m_outgoingFrameQueueStatus`. -/
def queueStatuses : List OutgoingFrameQueueStatus :=
  log.filterMap fun
    | .queueStatus status => some status
    | _ => none

/-- A Close frame was received. -/
def HasReceivedClose : Prop :=
  ∃ code reason, Effect.receivedClose code reason ∈ log

/-- The status moves from open to closing, and to closed, from which it does not move. -/
inductive StatusMove : OutgoingFrameQueueStatus → OutgoingFrameQueueStatus → Prop
  | closing : StatusMove outgoingFrameQueueOpen outgoingFrameQueueClosing
  | closed : StatusMove outgoingFrameQueueClosing outgoingFrameQueueClosed
  | aborted : StatusMove outgoingFrameQueueOpen outgoingFrameQueueClosed

theorem HasReceivedClose.snoc {log : List Effect} (h : HasReceivedClose log) (e : Effect) :
    HasReceivedClose (log ++ [e]) := by
  obtain ⟨code, reason, hmem⟩ := h
  exact ⟨code, reason, List.mem_append_left _ hmem⟩

/-- What a log should show: the frames handed to the socket are the first ones of those enqueued, no
two Close frames are enqueued, the handle is closed once at most, after every frame was sent and a
Close frame was received, and the status only moves on. -/
structure Orderly (log : List Effect) : Prop where
  handed : ∃ sent waiting loads loaded, enqueuedFrames log = sent ++ waiting ∧
    finishedLoads log = loads ++ loaded ∧ Handed sent loads (sentBytes log)
  close : ((enqueuedFrames log).filter fun frame => frame.opCode == opCodeClose).length ≤ 1
  closedHandle : (log.filter fun e => e == .closedHandle).length ≤ 1
  beforeClosed : ∀ before after, log = before ++ .closedHandle :: after →
    (∃ loads, Handed (enqueuedFrames before) loads (sentBytes before)) ∧ HasReceivedClose before
  status : List.IsChain StatusMove (outgoingFrameQueueOpen :: queueStatuses log)

/-! ## The abstract queue -/

structure Outbox where
  waiting : List QueuedFrame
  /-- The blob first in line, when it has been loaded. -/
  loaded : Option (Blob × Bytes)
  closeEnqueued : Bool
  closeReceived : Bool
  status : OutgoingFrameQueueStatus
  handleClosed : Bool

namespace Outbox

def empty : Outbox := ⟨[], none, false, false, outgoingFrameQueueOpen, false⟩

/-- The effects that may come next. -/
inductive Step (o : Outbox) : Effect → Outbox → Prop
  | enqueued (frame : QueuedFrame) : (frame.opCode = opCodeClose → o.closeEnqueued = false) →
      Step o (.enqueued frame)
        { o with
          waiting := o.waiting ++ [frame]
          closeEnqueued := o.closeEnqueued || frame.opCode == opCodeClose }
  | sentString {opCode data rest} (key : Vector UInt8 4) : o.waiting = .string opCode data :: rest →
        Step o (.sent (frameBytes opCode key (utf8 data))) { o with waiting := rest }
  | sentVector {opCode data rest} (key : Vector UInt8 4) : o.waiting = .vector opCode data :: rest →
        Step o (.sent (frameBytes opCode key data)) { o with waiting := rest }
  | sentBlob {opCode blob rest result} (key : Vector UInt8 4) :
      o.waiting = .blob opCode blob :: rest → o.loaded = some (blob, result) →
        Step o (.sent (frameBytes opCode key result)) { o with waiting := rest, loaded := none }
  | finishedLoading {opCode blob rest} (result : Bytes) :
      o.waiting = .blob opCode blob :: rest → o.loaded = none →
        Step o (.finishedLoading blob result) { o with loaded := some (blob, result) }
  | receivedClose (code : ℕ) (reason : Option UString) :
      Step o (.receivedClose code reason) { o with closeReceived := true }
  | queueStatus {status} : StatusMove o.status status →
      Step o (.queueStatus status) { o with status := status }
  | closedHandle : o.waiting = [] → o.closeReceived = true → o.handleClosed = false →
      Step o .closedHandle { o with handleClosed := true }
  | didReceiveMessage (message : UString) : Step o (.didReceiveMessage message) o
  | didReceiveBinaryData (data : Bytes) : Step o (.didReceiveBinaryData data) o
  | didStartClosingHandshake : Step o .didStartClosingHandshake o
  | didClose (complete : Bool) (code : ℕ) (reason : Option UString) :
      Step o (.didClose complete code reason) o
  | failed (failure : Failure) : Step o (.failed failure) o
  | networkError : Step o .networkError o
  | startedLoading (blob : Blob) : Step o (.startedLoading blob) o

/-- Each effect of the list was allowed when it came. -/
inductive Runs : List Effect → Outbox → Prop
  | nil : Runs [] empty
  | snoc {log o e o'} : Runs log o → Step o e o' → Runs (log ++ [e]) o'

/-- What the outbox tells about the effects so far. -/
structure Tells (log : List Effect) (o : Outbox) : Prop where
  handed : ∃ sent loads, enqueuedFrames log = sent ++ o.waiting ∧
    finishedLoads log = loads ++ o.loaded.toList ∧ Handed sent loads (sentBytes log)
  close : ((enqueuedFrames log).filter fun frame => frame.opCode == opCodeClose).length =
    if o.closeEnqueued then 1 else 0
  closedHandle : (log.filter fun e => e == .closedHandle).length = if o.handleClosed then 1 else 0
  received : o.closeReceived = true → HasReceivedClose log
  status : List.IsChain StatusMove (outgoingFrameQueueOpen :: queueStatuses log) ∧
    (outgoingFrameQueueOpen :: queueStatuses log).getLast? = some o.status

variable (log : List Effect) (e : Effect)

theorem enqueuedFrames_snoc :
    enqueuedFrames (log ++ [e]) = enqueuedFrames log ++ enqueuedFrames [e] :=
  List.filterMap_append

theorem sentBytes_snoc : sentBytes (log ++ [e]) = sentBytes log ++ sentBytes [e] :=
  List.filterMap_append

theorem finishedLoads_snoc : finishedLoads (log ++ [e]) = finishedLoads log ++ finishedLoads [e] :=
  List.filterMap_append

theorem queueStatuses_snoc : queueStatuses (log ++ [e]) = queueStatuses log ++ queueStatuses [e] :=
  List.filterMap_append

variable {log : List Effect} {o : Outbox}

section Unrelated

variable (h : Tells log o) {e : Effect} (henqueued : enqueuedFrames [e] = [])
include h henqueued

theorem Tells.handed_snoc (hsent : sentBytes [e] = []) (hloads : finishedLoads [e] = []) :
    ∃ sent loads, enqueuedFrames (log ++ [e]) = sent ++ o.waiting ∧
      finishedLoads (log ++ [e]) = loads ++ o.loaded.toList ∧
        Handed sent loads (sentBytes (log ++ [e])) := by
  rw [enqueuedFrames_snoc, sentBytes_snoc, finishedLoads_snoc, henqueued, hsent, hloads,
    List.append_nil, List.append_nil, List.append_nil]
  exact h.handed

theorem Tells.close_snoc : ((enqueuedFrames (log ++ [e])).filter fun frame =>
    frame.opCode == opCodeClose).length = if o.closeEnqueued then 1 else 0 := by
  rw [enqueuedFrames_snoc, henqueued, List.append_nil]
  exact h.close

omit henqueued in
theorem Tells.status_snoc (hstatus : queueStatuses [e] = []) :
    List.IsChain StatusMove (outgoingFrameQueueOpen :: queueStatuses (log ++ [e])) ∧
      (outgoingFrameQueueOpen :: queueStatuses (log ++ [e])).getLast? = some o.status := by
  rw [queueStatuses_snoc, hstatus, List.append_nil]
  exact h.status

/-- An effect that the queue has nothing to do with. -/
theorem Tells.unrelated (hsent : sentBytes [e] = []) (hloads : finishedLoads [e] = [])
    (hstatus : queueStatuses [e] = []) (hclosed : e ≠ .closedHandle) : Tells (log ++ [e]) o := by
  refine ⟨h.handed_snoc henqueued hsent hloads, h.close_snoc henqueued, ?_,
    fun hreceived => (h.received hreceived).snoc _, h.status_snoc hstatus⟩
  rw [List.filter_append, List.filter_cons_of_neg (by simpa using hclosed), List.filter_nil,
    List.append_nil]
  exact h.closedHandle

end Unrelated

variable (h : Tells log o)

include h

/-- A frame that goes out. -/
theorem Tells.sent (hwaiting : o.waiting = frame :: rest) {loaded : Option (Blob × Bytes)}
    (used : List (Blob × Bytes)) (hused : o.loaded.toList = used ++ loaded.toList)
    (hhanded : ∀ {frames loads all}, Handed frames loads all →
      Handed (frames ++ [frame]) (loads ++ used) (all ++ [bytes])) :
    Tells (log ++ [.sent bytes]) { o with waiting := rest, loaded := loaded } := by
  obtain ⟨sent, loads, henqueued, hloads, hsent⟩ := h.handed
  constructor
  · refine ⟨sent ++ [frame], loads ++ used, ?_, ?_, ?_⟩
    · rw [enqueuedFrames_snoc, henqueued, hwaiting]
      simp [enqueuedFrames]
    · rw [finishedLoads_snoc, hloads, hused]
      simp [finishedLoads]
    · rw [sentBytes_snoc]
      exact hhanded hsent
  · exact h.close_snoc rfl
  · simpa using h.closedHandle
  · exact fun hreceived => (h.received hreceived).snoc _
  · exact h.status_snoc rfl

theorem Tells.enqueued (frame : QueuedFrame)
    (hclose : frame.opCode = opCodeClose → o.closeEnqueued = false) :
    Tells (log ++ [.enqueued frame])
      { o with
        waiting := o.waiting ++ [frame]
        closeEnqueued := o.closeEnqueued || frame.opCode == opCodeClose } := by
  obtain ⟨sent, loads, henqueued, hloads, hsent⟩ := h.handed
  have hframe : enqueuedFrames [.enqueued frame] = [frame] := rfl
  constructor
  · refine ⟨sent, loads, ?_, ?_, ?_⟩
    · rw [enqueuedFrames_snoc, henqueued, hframe, List.append_assoc]
    · rw [finishedLoads_snoc, hloads]
      simp [finishedLoads]
    · simpa [sentBytes] using hsent
  · rw [enqueuedFrames_snoc, hframe, List.filter_append, List.length_append, h.close]
    by_cases hop : frame.opCode = opCodeClose
    · rw [hclose hop]
      simp [hop]
    · simp [hop]
  · simpa using h.closedHandle
  · exact fun hreceived => (h.received hreceived).snoc _
  · exact h.status_snoc rfl

theorem Tells.finishedLoading (blob : Blob) (result : Bytes) (hloaded : o.loaded = none) :
    Tells (log ++ [.finishedLoading blob result]) { o with loaded := some (blob, result) } := by
  obtain ⟨sent, loads, henqueued, hloads, hsent⟩ := h.handed
  constructor
  · refine ⟨sent, loads, ?_, ?_, ?_⟩
    · rw [enqueuedFrames_snoc, henqueued]
      simp [enqueuedFrames]
    · rw [finishedLoads_snoc, hloads, hloaded]
      simp [finishedLoads]
    · simpa [sentBytes] using hsent
  · exact h.close_snoc rfl
  · simpa using h.closedHandle
  · exact fun hreceived => (h.received hreceived).snoc _
  · exact h.status_snoc rfl

theorem Tells.receivedClose (code : ℕ) (reason : Option UString) :
    Tells (log ++ [.receivedClose code reason]) { o with closeReceived := true } := by
  have hsame : Tells (log ++ [.receivedClose code reason]) o :=
    h.unrelated rfl rfl rfl rfl (by simp)
  exact ⟨hsame.handed, hsame.close, hsame.closedHandle,
    fun _ => ⟨code, reason, List.mem_append_right _ List.mem_cons_self⟩, hsame.status⟩

theorem Tells.queueStatus {status : OutgoingFrameQueueStatus} (hmove : StatusMove o.status status) :
    Tells (log ++ [.queueStatus status]) { o with status := status } := by
  constructor
  · exact h.handed_snoc rfl rfl rfl
  · exact h.close_snoc rfl
  · simpa using h.closedHandle
  · exact fun hreceived => (h.received hreceived).snoc _
  · rw [queueStatuses_snoc, show queueStatuses [.queueStatus status] = [status] from rfl,
      ← List.cons_append]
    refine ⟨List.IsChain.append h.status.1 (List.IsChain.singleton _) ?_, List.getLast?_concat⟩
    intro x hx y hy
    rw [h.status.2, Option.mem_some_iff] at hx
    rw [List.head?_cons, Option.mem_some_iff] at hy
    subst hx hy
    exact hmove

theorem Tells.handleClosed (hopen : o.handleClosed = false) :
    Tells (log ++ [.closedHandle]) { o with handleClosed := true } := by
  constructor
  · exact h.handed_snoc rfl rfl rfl
  · exact h.close_snoc rfl
  · rw [List.filter_append, List.length_append, h.closedHandle, hopen]
    rfl
  · exact fun hreceived => (h.received hreceived).snoc _
  · exact h.status_snoc rfl

omit h in
theorem tells_empty : Tells [] empty :=
  ⟨⟨[], [], rfl, rfl, Handed.nil⟩, rfl, rfl, fun h => (by cases h), List.IsChain.singleton _, rfl⟩

theorem Step.tells {o' : Outbox} {e : Effect} (hstep : Step o e o') :
    Tells (log ++ [e]) o' := by
  cases hstep with
  | enqueued frame hclose => exact h.enqueued frame hclose
  | sentString key hwaiting =>
    refine h.sent hwaiting [] rfl fun hhanded => ?_
    rw [List.append_nil]
    exact hhanded.string _ _ key
  | sentVector key hwaiting =>
    refine h.sent hwaiting [] rfl fun hhanded => ?_
    rw [List.append_nil]
    exact hhanded.vector _ _ key
  | sentBlob key hwaiting hloaded =>
    exact h.sent hwaiting [_] (by rw [hloaded]; rfl) fun hhanded => hhanded.blob _ _ _ key
  | finishedLoading result hwaiting hloaded => exact h.finishedLoading _ result hloaded
  | receivedClose code reason => exact h.receivedClose code reason
  | queueStatus hmove => exact h.queueStatus hmove
  | closedHandle hwaiting hreceived hopen => exact h.handleClosed hopen
  | _ => exact h.unrelated rfl rfl rfl rfl (by simp)

omit h

theorem Runs.tells (h : Runs log o) : Tells log o := by
  induction h with
  | nil => exact tells_empty
  | snoc _ hstep ih => exact hstep.tells ih

/-- Every moment of a run is the end of a run. -/
theorem Runs.of_prefix (h : Runs log o) : ∀ moment, moment <+: log → ∃ o', Runs moment o' := by
  induction h with
  | nil =>
    intro moment hprefix
    rw [List.prefix_nil.mp hprefix]
    exact ⟨_, Runs.nil⟩
  | @snoc log o e o' hruns hstep ih =>
    intro moment hprefix
    rcases List.prefix_concat_iff.mp hprefix with rfl | hprefix
    · exact ⟨o', hruns.snoc hstep⟩
    · exact ih moment hprefix

/-- The handle is closed in good order. -/
theorem Runs.beforeClosed {before : List Effect} (h : Runs (before ++ [.closedHandle]) o) :
    (∃ loads, Handed (enqueuedFrames before) loads (sentBytes before)) ∧
      HasReceivedClose before := by
  generalize hlog : before ++ [Effect.closedHandle] = log at h
  cases h with
  | nil => simp at hlog
  | snoc hruns hstep =>
    obtain ⟨rfl, he⟩ := List.append_inj' hlog rfl
    cases List.cons.inj he |>.1
    cases hstep with
    | closedHandle hwaiting hreceived _ =>
      obtain ⟨sent, loads, henqueued, -, hsent⟩ := hruns.tells.handed
      rw [hwaiting, List.append_nil] at henqueued
      exact ⟨⟨loads, henqueued ▸ hsent⟩, hruns.tells.received hreceived⟩

/-- A run is orderly at its end. -/
theorem Runs.orderly (h : Runs log o) : Orderly log := by
  obtain ⟨sent, loads, henqueued, hloads, hsent⟩ := h.tells.handed
  constructor
  · exact ⟨sent, o.waiting, loads, o.loaded.toList, henqueued, hloads, hsent⟩
  · rw [h.tells.close]
    split <;> omega
  · rw [h.tells.closedHandle]
    split <;> omega
  · intro before after hlog
    have hprefix : before ++ [Effect.closedHandle] <+: log :=
      ⟨after, by rw [hlog, List.append_assoc]; rfl⟩
    obtain ⟨o', hruns⟩ := h.of_prefix _ hprefix
    exact hruns.beforeClosed
  · exact h.tells.status.1

end Outbox

end WebSockets
end WebKit
