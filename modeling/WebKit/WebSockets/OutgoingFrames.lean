import WebKit.WebSockets.Outbox

/-!
# The outgoing queue of a channel

Each operation of the channel appends effects to the log that the outbox allows (`Tracked`), as long
as the socket takes what it is given and an `int` holds the length of every frame.  So the log of
every such run is orderly at every moment.  If the write of the reply to a Close frame fails, though
`send` returns true, the queue is closed and then closing (`not_orderly_failingSocket`).
-/

namespace WebKit
namespace WebSockets

open WTF (UString utf8)
open OutgoingFrameQueueStatus BlobLoaderStatus

/-- A frame of the queue whose length is an `int`; that of a blob is known when it is loaded. -/
def QueuedFrame.IsShort : QueuedFrame → Prop
  | string _ stringData => WebSockets.IsShort (utf8 stringData)
  | vector _ vectorData => WebSockets.IsShort vectorData
  | blob _ _ => True

namespace WebSocketChannel

/-- What has been loaded for the blob at the front of the queue. -/
def loadedBlob (s : WebSocketChannel) : Option (Blob × Bytes) :=
  if s.blobLoaderStatus = blobLoaderFinished then
    s.blobLoader.map fun loader => (loader.blob, loader.arrayBufferResult)
  else none

/-- The frames of the queue and the loaded bytes are short. -/
def HasShortFrames (queue : List QueuedFrame) (loader : Option BlobLoader) : Prop :=
  (∀ frame ∈ queue, frame.IsShort) ∧ ∀ l ∈ loader, IsShort l.arrayBufferResult

/-- A blob is first in the queue, and the loader was started for it. -/
def LoadsFirst (s : WebSocketChannel) : Prop :=
  ∃ opCode blob rest result,
    s.outgoingFrameQueue = .blob opCode blob :: rest ∧ s.blobLoader = some ⟨blob, result⟩

/-- The channel and its outbox. -/
structure Tracked (s : WebSocketChannel) (o : Outbox) : Prop where
  runs : Outbox.Runs s.log o
  suspended : s.suspended = false
  status : o.status = s.outgoingFrameQueueStatus
  closeReceived : o.closeReceived = s.receivedClosingHandshake
  handle : s.outgoingFrameQueueStatus ≠ outgoingFrameQueueClosed → s.handle = true
  handleClosed : o.handleClosed = true → s.outgoingFrameQueueStatus = outgoingFrameQueueClosed
  waiting : s.outgoingFrameQueueStatus ≠ outgoingFrameQueueClosed → o.waiting = s.outgoingFrameQueue
  loaded : o.loaded = s.loadedBlob
  loading : s.blobLoaderStatus = blobLoaderStarted ∨ s.blobLoaderStatus = blobLoaderFinished →
    s.outgoingFrameQueueStatus ≠ outgoingFrameQueueClosed ∧ s.LoadsFirst
  closing : s.outgoingFrameQueueStatus = outgoingFrameQueueClosing →
    s.receivedClosingHandshake = true
  short : HasShortFrames s.outgoingFrameQueue s.blobLoader

/-- What holds between two events, besides. -/
structure Idle (s : WebSocketChannel) (o : Outbox) : Prop where
  loader : s.blobLoaderStatus ≠ blobLoaderFinished
  closed : s.outgoingFrameQueueStatus = outgoingFrameQueueClosed →
    s.receivedClosingHandshake = true ∨ s.client = false
  closeEnqueued : o.closeEnqueued = true → s.closing = true

theorem tracked_connected : Tracked connected Outbox.empty where
  runs := Outbox.Runs.nil
  suspended := rfl
  status := rfl
  closeReceived := rfl
  handle := fun _ => rfl
  handleClosed := fun h => by cases h
  waiting := fun _ => rfl
  loaded := rfl
  loading := fun h => by rcases h with h | h <;> cases h
  closing := fun h => by cases h
  short := ⟨fun _ h => (by cases h), fun _ h => by cases h⟩

theorem idle_connected : Idle connected Outbox.empty where
  loader := by decide
  closed := fun h => by cases h
  closeEnqueued := fun h => by cases h

/-! ## Effects -/

variable {o : Outbox} {s : WebSocketChannel}

/-- A channel with the queue and the handshake of another. -/
def withQueueOf (s' s : WebSocketChannel) : WebSocketChannel :=
  { s' with
    handle := s.handle
    suspended := s.suspended
    receivedClosingHandshake := s.receivedClosingHandshake
    outgoingFrameQueue := s.outgoingFrameQueue
    outgoingFrameQueueStatus := s.outgoingFrameQueueStatus
    blobLoader := s.blobLoader
    blobLoaderStatus := s.blobLoaderStatus
    log := s.log }

section

variable (h : Tracked s o)

include h

/-- The other fields have nothing to do with the outbox. -/
theorem Tracked.unrelated (heq : s'.withQueueOf s = s') : Tracked s' o := by
  rw [← heq]
  exact { h with }

/-- An effect that leaves the outbox as it is. -/
theorem Tracked.effect (hstep : Outbox.Step o e o) :
    Tracked (s.effect e) o :=
  { h with runs := h.runs.snoc hstep }

theorem Tracked.effectIf (present : Bool)
    (hstep : Outbox.Step o e o) : Tracked (s.effectIf present e) o := by
  cases present with
  | false => exact h
  | true => exact h.effect hstep

theorem Tracked.discardReceivedData (failure : Failure) :
    Tracked (s.discardReceivedData failure) o := by
  have hreported := h.effectIf s.document (Outbox.Step.failed failure)
  exact hreported.unrelated rfl

/-- A queue that is aborted or finished. -/
theorem Tracked.closeQueue (hopen : s.outgoingFrameQueueStatus ≠ outgoingFrameQueueClosed)
    (hloader : s.blobLoaderStatus ≠ blobLoaderStarted)
    (hloader' : s.blobLoaderStatus ≠ blobLoaderFinished) (queue : List QueuedFrame)
    (hqueue : queue ⊆ s.outgoingFrameQueue) :
    Tracked ({ s with outgoingFrameQueue := queue }.setQueueStatus outgoingFrameQueueClosed)
      { o with status := outgoingFrameQueueClosed } := by
  have hmove : StatusMove o.status outgoingFrameQueueClosed := by
    rw [h.status]
    cases hstatus : s.outgoingFrameQueueStatus with
    | outgoingFrameQueueOpen => exact StatusMove.aborted
    | outgoingFrameQueueClosing => exact StatusMove.closed
    | outgoingFrameQueueClosed => exact absurd hstatus hopen
  exact { h with
    runs := h.runs.snoc (Outbox.Step.queueStatus hmove)
    status := rfl
    handle := fun hne => absurd rfl hne
    handleClosed := fun _ => rfl
    waiting := fun hne => absurd rfl hne
    loading := fun hloading => absurd hloading (not_or.mpr ⟨hloader, hloader'⟩)
    closing := nofun
    short := ⟨fun frame hframe => h.short.1 frame (hqueue hframe), h.short.2⟩ }

/-- A loader that is cleared and failed. -/
theorem Tracked.failLoader (hloader : s.blobLoaderStatus ≠ blobLoaderFinished) :
    Tracked { s with blobLoader := none, blobLoaderStatus := blobLoaderFailed } o := by
  have hloaded : o.loaded = none := by
    rw [h.loaded, loadedBlob, if_neg hloader]
  exact { h with
    loaded := hloaded
    loading := by simp
    short := ⟨h.short.1, fun _ hnone => by cases hnone⟩ }

theorem Tracked.abortOutgoingFrameQueue
    (hopen : s.outgoingFrameQueueStatus ≠ outgoingFrameQueueClosed)
    (hloader : s.blobLoaderStatus ≠ blobLoaderFinished) :
    Tracked s.abortOutgoingFrameQueue { o with status := outgoingFrameQueueClosed } := by
  rw [WebSocketChannel.abortOutgoingFrameQueue]
  split
  · have hfailed := (h.failLoader hloader).closeQueue hopen (by simp) (by simp) []
      (List.nil_subset _)
    exact hfailed.discardReceivedData _
  · rename_i hstarted
    exact h.closeQueue hopen hstarted hloader [] (List.nil_subset _)

end

/-- The fields that closing the socket does not change. -/
structure SameHandshake (s s' : WebSocketChannel) : Prop where
  closing : s'.closing = s.closing
  received : s'.receivedClosingHandshake = s.receivedClosingHandshake

theorem SameHandshake.trans (h : SameHandshake s s')
    (h' : SameHandshake s' s'') : SameHandshake s s'' :=
  ⟨h'.closing.trans h.closing, h'.received.trans h.received⟩

theorem sameHandshake_setClosed (s : WebSocketChannel) : SameHandshake s s.setClosed := by
  rw [WebSocketChannel.setClosed]
  split
  · rw [abortOutgoingFrameQueue]
    split <;> exact ⟨rfl, rfl⟩
  · exact ⟨rfl, rfl⟩

theorem sameHandshake_didCloseSocketStream (s : WebSocketChannel) :
    SameHandshake s s.didCloseSocketStream := by
  have h := sameHandshake_setClosed s
  rw [didCloseSocketStream]
  split
  · exact ⟨h.closing, h.received⟩
  · exact h

/-! ## Closing the socket -/

theorem Tracked.setClosed (h : Tracked s o) (hloader : s.blobLoaderStatus ≠ blobLoaderFinished) :
    Tracked s.setClosed { o with status := outgoingFrameQueueClosed } ∧
      s.setClosed.handle = s.handle ∧ s.setClosed.blobLoaderStatus ≠ blobLoaderFinished := by
  have hclosed : Tracked { s with closed := true } o := h.unrelated rfl
  rw [WebSocketChannel.setClosed]
  split
  · rename_i hopen
    refine ⟨hclosed.abortOutgoingFrameQueue hopen hloader, ?_⟩
    rw [WebSocketChannel.abortOutgoingFrameQueue]
    split
    · exact ⟨rfl, by simp [WebSocketChannel.discardReceivedData, WebSocketChannel.effectIf]⟩
    · exact ⟨rfl, hloader⟩
  · rename_i hstatus
    have ho : { o with status := outgoingFrameQueueClosed } = o := by
      rw [← not_not.mp hstatus, ← hclosed.status]
    rw [ho]
    exact ⟨hclosed, rfl, hloader⟩

/-- After the socket has closed the queue is closed, and the channel has no client. -/
theorem Tracked.didCloseSocketStream (h : Tracked s o) (hhandle : s.handle = true)
    (hloader : s.blobLoaderStatus ≠ blobLoaderFinished) :
    Tracked s.didCloseSocketStream { o with status := outgoingFrameQueueClosed } ∧
      s.didCloseSocketStream.client = false ∧
      s.didCloseSocketStream.blobLoaderStatus ≠ blobLoaderFinished := by
  obtain ⟨htracked, hhandle', hloader'⟩ := h.setClosed hloader
  rw [WebSocketChannel.didCloseSocketStream, hhandle', hhandle, htracked.suspended]
  refine ⟨?_, rfl, hloader'⟩
  have hleft := (htracked.effectIf s.setClosed.client (Outbox.Step.didClose
    s.setClosed.receivedClosingHandshake s.setClosed.closeEventCode s.setClosed.closeEventReason))
  exact { htracked with
    runs := hleft.runs
    suspended := rfl
    handle := fun hne => absurd htracked.status.symm hne }

/-! ## Sending -/

section Socket

variable {socket : SocketStreamHandle}

/-- What sending the frames of the queue leaves, for a queue that was not closed. -/
structure Drained (s : WebSocketChannel) (o : Outbox) (s' : WebSocketChannel) (o' : Outbox) :
    Prop where
  tracked : Tracked s' o'
  same : SameHandshake s s'
  closeEnqueued : o'.closeEnqueued = o.closeEnqueued
  loader : s'.blobLoaderStatus ≠ blobLoaderFinished
  /-- An open queue stays open, and the client stays. -/
  stillOpen : s.outgoingFrameQueueStatus = outgoingFrameQueueOpen →
    s'.outgoingFrameQueueStatus = outgoingFrameQueueOpen ∧ s'.client = s.client

theorem sendFrame_eq (hsends : ∀ n, socket.result n = .taken) (hhandle : s.handle = true)
    (opCode : OpCode) (hshort : IsShort data) :
    s.sendFrame socket opCode data =
      { s with sends := s.sends + 1 }.effect
        (.sent (frameBytes opCode (socket.maskingKey s.sends) data)) := by
  rw [sendFrame, if_pos hhandle, hsends, giveToSocket_taken hshort]

/-- A frame that is taken from the queue and sent. -/
theorem Tracked.sent (h : Tracked s o) (loader : Option BlobLoader)
    (hstep : Outbox.Step o (.sent bytes) { o with waiting := rest, loaded := none })
    (hloaded : loaderStatus ≠ blobLoaderFinished) (hstarted : loaderStatus ≠ blobLoaderStarted)
    (hshort : HasShortFrames rest loader) :
    Tracked
      ({ s with
          outgoingFrameQueue := rest
          blobLoader := loader
          blobLoaderStatus := loaderStatus
          sends := s.sends + 1 }.effect (.sent bytes))
      { o with waiting := rest, loaded := none } := by
  exact { h with
    runs := h.runs.snoc hstep
    waiting := fun _ => rfl
    loaded := (if_neg hloaded).symm
    loading := fun hloading => absurd hloading (not_or.mpr ⟨hstarted, hloaded⟩)
    short := hshort }

/-- The end of the queue. -/
theorem Tracked.finishOutgoingFrameQueue (h : Tracked s o)
    (hopen : s.outgoingFrameQueueStatus ≠ outgoingFrameQueueClosed)
    (hqueue : s.outgoingFrameQueue = []) :
    ∃ o', Drained s o (s.finishOutgoingFrameQueue socket) o' := by
  -- no blob is being loaded
  have hloader : ¬(s.blobLoaderStatus = blobLoaderStarted ∨
      s.blobLoaderStatus = blobLoaderFinished) := by
    intro hloading
    obtain ⟨-, opCode, blob, rest, result, hfirst, -⟩ := h.loading hloading
    rw [hqueue] at hfirst
    cases hfirst
  rw [not_or] at hloader
  rw [WebSocketChannel.finishOutgoingFrameQueue]
  split
  · rename_i hclosing
    have hfinished := h.closeQueue hopen hloader.1 hloader.2 s.outgoingFrameQueue
      (List.Subset.refl _)
    have hhandle : (s.setQueueStatus outgoingFrameQueueClosed).handle = true := h.handle hopen
    have hnotClosed : o.handleClosed = false := by
      cases hc : o.handleClosed with
      | false => rfl
      | true => exact absurd (h.handleClosed hc) hopen
    -- the handle is closed
    have hstep : Outbox.Step { o with status := outgoingFrameQueueClosed } .closedHandle
        { o with status := outgoingFrameQueueClosed, handleClosed := true } :=
      Outbox.Step.closedHandle ((h.waiting hopen).trans hqueue)
        (h.closeReceived.trans (h.closing hclosing)) hnotClosed
    have hdone : Tracked ((s.setQueueStatus outgoingFrameQueueClosed).effect .closedHandle)
        { o with status := outgoingFrameQueueClosed, handleClosed := true } :=
      { hfinished with
        runs := hfinished.runs.snoc hstep
        handleClosed := fun _ => rfl }
    have hnotOpen : s.outgoingFrameQueueStatus ≠ outgoingFrameQueueOpen := by
      rw [hclosing]
      decide
    rw [if_pos hhandle]
    split
    · obtain ⟨htracked, -, hloader'⟩ := hdone.didCloseSocketStream hhandle hloader.2
      have hsame : SameHandshake s ((s.setQueueStatus outgoingFrameQueueClosed).effect
          .closedHandle) := ⟨rfl, rfl⟩
      exact ⟨_, htracked, hsame.trans (sameHandshake_didCloseSocketStream _), rfl, hloader',
        fun ho => absurd ho hnotOpen⟩
    · exact ⟨_, hdone, ⟨rfl, rfl⟩, rfl, hloader.2, fun ho => absurd ho hnotOpen⟩
  · exact ⟨o, h, ⟨rfl, rfl⟩, rfl, hloader.2, fun ho => ⟨ho, rfl⟩⟩

/-- The rounds that are left after a frame was sent. -/
theorem Drained.after (h : Drained s' o' s'' o'') (hsame : SameHandshake s s')
    (hstatus : s'.outgoingFrameQueueStatus = s.outgoingFrameQueueStatus)
    (hclient : s'.client = s.client) (hclose : o'.closeEnqueued = o.closeEnqueued) :
    Drained s o s'' o'' := by
  refine ⟨h.tracked, hsame.trans h.same, h.closeEnqueued.trans hclose, h.loader, fun ho => ?_⟩
  obtain ⟨hopen, hclient'⟩ := h.stillOpen (hstatus.trans ho)
  exact ⟨hopen, hclient'.trans hclient⟩

/-- The loop sends every frame up to the first blob that is not loaded. -/
theorem Tracked.sendQueuedFrames (hsends : ∀ n, socket.result n = .taken) :
    ∀ {fuel : ℕ} {s : WebSocketChannel} {o : Outbox}, Tracked s o →
      s.outgoingFrameQueueStatus ≠ outgoingFrameQueueClosed →
      s.outgoingFrameQueue.length < fuel →
        ∃ o', Drained s o (WebSocketChannel.sendQueuedFrames socket fuel s) o'
  | 0, _, _, _, _, hfuel => absurd hfuel (Nat.not_lt_zero _)
  | fuel + 1, s, o, h, hopen, hfuel => by
    have hwaiting := h.waiting hopen
    have hhandle := h.handle hopen
    rw [WebSocketChannel.sendQueuedFrames]
    cases hqueue : s.outgoingFrameQueue with
    | nil => exact h.finishOutgoingFrameQueue hopen hqueue
    | cons frame rest =>
      rw [hqueue] at hfuel hwaiting
      rw [List.length_cons] at hfuel
      have hfuel' : rest.length < fuel := by omega
      -- the frame goes out, and the rest of the queue follows
      have hsend : ∀ opCode data loader loaderStatus, IsShort data → HasShortFrames rest loader →
          loaderStatus ≠ blobLoaderFinished → loaderStatus ≠ blobLoaderStarted →
          Outbox.Step o (.sent (frameBytes opCode (socket.maskingKey s.sends) data))
            { o with waiting := rest, loaded := none } →
          ∃ o', Drained s o (WebSocketChannel.sendQueuedFrames socket fuel
            (sendFrame socket
              { s with
                outgoingFrameQueue := rest
                blobLoader := loader
                blobLoaderStatus := loaderStatus } opCode data)) o' := by
        intro opCode data loader loaderStatus hdata hrest hfinished hstarted hstep
        rw [sendFrame_eq hsends (by exact hhandle) opCode hdata]
        have hsent := h.sent loader hstep hfinished hstarted hrest
        obtain ⟨o', ho'⟩ := Tracked.sendQueuedFrames hsends hsent hopen hfuel'
        exact ⟨o', ho'.after (s := s) (o := o) ⟨rfl, rfl⟩ rfl rfl rfl⟩
      have hframe : frame.IsShort := h.short.1 frame (hqueue ▸ List.mem_cons_self)
      have hrest : ∀ frame ∈ rest, frame.IsShort :=
        fun frame hmem => h.short.1 frame (hqueue ▸ List.mem_cons_of_mem _ hmem)
      -- a frame that is not a blob is first only when nothing is being loaded
      have hidle : (∀ opCode blob, frame ≠ .blob opCode blob) →
          s.blobLoaderStatus ≠ blobLoaderFinished ∧ s.blobLoaderStatus ≠ blobLoaderStarted ∧
            o.loaded = none := by
        intro hframe
        have hnot : ¬(s.blobLoaderStatus = blobLoaderStarted ∨
            s.blobLoaderStatus = blobLoaderFinished) := by
          intro hloading
          obtain ⟨-, opCode, blob, rest', result, hfirst, -⟩ := h.loading hloading
          rw [hqueue] at hfirst
          exact hframe opCode blob (List.cons.inj hfirst).1
        rw [not_or] at hnot
        exact ⟨hnot.2, hnot.1, h.loaded.trans (if_neg hnot.2)⟩
      cases frame with
      | string opCode data =>
        obtain ⟨hfinished, hstarted, hloaded⟩ := hidle (fun _ _ hcase => by cases hcase)
        refine hsend _ _ s.blobLoader _ hframe ⟨hrest, h.short.2⟩ hfinished hstarted ?_
        rw [← hloaded]
        exact Outbox.Step.sentString _ hwaiting
      | vector opCode data =>
        obtain ⟨hfinished, hstarted, hloaded⟩ := hidle (fun _ _ hcase => by cases hcase)
        refine hsend _ _ s.blobLoader _ hframe ⟨hrest, h.short.2⟩ hfinished hstarted ?_
        rw [← hloaded]
        exact Outbox.Step.sentVector _ hwaiting
      | blob opCode blob =>
        have hsame : SameHandshake s s := ⟨rfl, rfl⟩
        cases hloader : s.blobLoaderStatus with
        | blobLoaderNotStarted =>
          -- the loader is started, and the frame stays first
          refine ⟨o, ?_, ⟨rfl, rfl⟩, rfl, by simp [WebSocketChannel.effect], fun ho => ⟨ho, rfl⟩⟩
          have hloaded : o.loaded = none := by
            rw [h.loaded, loadedBlob, hloader]
            rfl
          have hall : ∀ frame ∈ .blob opCode blob :: rest, frame.IsShort :=
            hqueue ▸ h.short.1
          exact { h with
            runs := h.runs.snoc (Outbox.Step.startedLoading blob)
            waiting := fun _ => hwaiting
            loaded := hloaded
            loading := fun _ => ⟨hopen, opCode, blob, rest, [], rfl, rfl⟩
            short := ⟨hall, fun _ hnew => by cases hnew; exact isShort_nil⟩ }
        | blobLoaderStarted | blobLoaderFailed =>
          exact ⟨o, h, hsame, rfl, by rw [hloader]; decide, fun ho => ⟨ho, rfl⟩⟩
        | blobLoaderFinished =>
          -- the frame goes out with what was loaded for it
          obtain ⟨-, opCode', blob', rest', result, hfirst, hresult⟩ := h.loading (Or.inr hloader)
          rw [hqueue] at hfirst
          cases hfirst
          have hloaded : o.loaded = some (blob, result) := by
            rw [h.loaded, loadedBlob, if_pos hloader, hresult]
            rfl
          rw [hresult]
          exact hsend _ _ none _ (h.short.2 _ hresult) ⟨hrest, fun _ hnone => by cases hnone⟩
            (by decide) (by decide) (Outbox.Step.sentBlob _ hwaiting hloaded)

/-- A queue is closed only after a Close frame, or when the client has gone. -/
def ClosedCause (s : WebSocketChannel) : Prop :=
  s.outgoingFrameQueueStatus = outgoingFrameQueueClosed →
    s.receivedClosingHandshake = true ∨ s.client = false

theorem Tracked.processOutgoingFrameQueue (hsends : ∀ n, socket.result n = .taken)
    (h : Tracked s o) :
    ∃ o', Drained s o (s.processOutgoingFrameQueue socket) o' ∧
      (ClosedCause s → ClosedCause (s.processOutgoingFrameQueue socket)) := by
  rw [WebSocketChannel.processOutgoingFrameQueue]
  split
  · rename_i hclosed
    have hloader : s.blobLoaderStatus ≠ blobLoaderFinished :=
      fun hf => (h.loading (Or.inr hf)).1 hclosed
    exact ⟨o, ⟨h, ⟨rfl, rfl⟩, rfl, hloader, fun ho => ⟨ho, rfl⟩⟩, fun hcause => hcause⟩
  · rename_i hopen
    obtain ⟨o', hdrained⟩ := h.sendQueuedFrames hsends hopen (Nat.lt_succ_self _)
    refine ⟨o', hdrained, fun _ hclosed => Or.inl ?_⟩
    rw [hdrained.same.received]
    cases hstatus : s.outgoingFrameQueueStatus with
    | outgoingFrameQueueOpen =>
      rw [(hdrained.stillOpen hstatus).1] at hclosed
      cases hclosed
    | outgoingFrameQueueClosing => exact h.closing hstatus
    | outgoingFrameQueueClosed => exact absurd hstatus hopen

/-- A frame put into the queue. -/
theorem Tracked.enqueueFrame (hsends : ∀ n, socket.result n = .taken) (h : Tracked s o)
    (frame : QueuedFrame) (hframe : frame.IsShort)
    (hclose : frame.opCode = opCodeClose → o.closeEnqueued = false) :
    ∃ o', Drained s { o with closeEnqueued := o.closeEnqueued || frame.opCode == opCodeClose }
        (s.enqueueFrame socket frame) o' ∧
      (ClosedCause s → ClosedCause (s.enqueueFrame socket frame)) := by
  have henqueued : Tracked
      ({ s with outgoingFrameQueue := s.outgoingFrameQueue ++ [frame] }.effect (.enqueued frame))
      { o with
        waiting := o.waiting ++ [frame]
        closeEnqueued := o.closeEnqueued || frame.opCode == opCodeClose } := {
    h with
    runs := h.runs.snoc (Outbox.Step.enqueued frame hclose)
    waiting := fun hopen => congrArg (· ++ [frame]) (h.waiting hopen)
    loading := fun hloading => by
      obtain ⟨hopen, opCode, blob, rest, result, hfirst, hloader⟩ := h.loading hloading
      exact ⟨hopen, opCode, blob, rest ++ [frame], result, by rw [hfirst]; rfl, hloader⟩
    short := by
      refine ⟨fun frame' hmem => ?_, h.short.2⟩
      rcases List.mem_append.mp hmem with hmem | hmem
      · exact h.short.1 frame' hmem
      · rwa [List.mem_singleton.mp hmem] }
  obtain ⟨o', hdrained, hcause⟩ := henqueued.processOutgoingFrameQueue hsends
  exact ⟨o', hdrained.after (s := s) ⟨rfl, rfl⟩ rfl rfl rfl, hcause⟩

/-! ## Steps -/

/-- Between two events the channel is tracked and idle. -/
def IsIdle (s : WebSocketChannel) : Prop := ∃ o, Tracked s o ∧ Idle s o

variable (h : IsIdle s)

include h

/-- The received data have nothing to do with the queue. -/
theorem IsIdle.unrelated (heq : s'.withQueueOf s = s')
    (hclient : s'.client = s.client) (hclosing : s'.closing = s.closing) : IsIdle s' := by
  obtain ⟨o, htracked, hidle⟩ := h
  rw [← heq]
  exact ⟨o, { htracked with }, hidle.loader, fun hclosed => hclient ▸ hidle.closed hclosed,
    fun hclose => hclosing.trans (hidle.closeEnqueued hclose)⟩

theorem IsIdle.effect (hstep : ∀ o, Outbox.Step o e o) :
    IsIdle (s.effect e) := by
  obtain ⟨o, htracked, hidle⟩ := h
  exact ⟨o, htracked.effect (hstep o), { hidle with }⟩

theorem IsIdle.didCloseSocketStream (hhandle : s.handle = true) :
    IsIdle s.didCloseSocketStream := by
  obtain ⟨o, htracked, hidle⟩ := h
  obtain ⟨htracked', hclient, hloader⟩ := htracked.didCloseSocketStream hhandle hidle.loader
  refine ⟨_, htracked', hloader, fun _ => Or.inr hclient, fun hclose => ?_⟩
  rw [(sameHandshake_didCloseSocketStream s).closing]
  exact hidle.closeEnqueued hclose

theorem IsIdle.discardReceivedData (failure : Failure) :
    IsIdle (s.discardReceivedData failure) := by
  obtain ⟨o, htracked, hidle⟩ := h
  exact ⟨o, htracked.discardReceivedData failure, { hidle with }⟩

theorem IsIdle.didFailSocketStream (hhandle : s.handle = true) : IsIdle s.didFailSocketStream := by
  obtain ⟨o, htracked, hidle⟩ := h
  have hreported := htracked.effectIf s.document Outbox.Step.networkError
  refine IsIdle.didCloseSocketStream ⟨o, hreported.unrelated rfl, { hidle with }⟩ hhandle

theorem IsIdle.fail (failure : Failure) : IsIdle (s.fail failure) := by
  have hdiscarded := h.discardReceivedData failure
  rw [WebSocketChannel.fail]
  split
  · rename_i hhandle
    exact hdiscarded.didCloseSocketStream ((Bool.and_eq_true_iff.mp hhandle).1)
  · exact hdiscarded

theorem IsIdle.didFail (errorCode : ℕ) : IsIdle (s.didFail errorCode) := by
  obtain ⟨o, htracked, hidle⟩ := h
  exact IsIdle.fail ⟨o, htracked.failLoader hidle.loader,
    { hidle with loader := by simp }⟩ _

variable (hsends : ∀ n, socket.result n = .taken)

include hsends

theorem IsIdle.enqueueFrame (hframe : frame.opCode ≠ opCodeClose) (hshort : frame.IsShort) :
    IsIdle (s.enqueueFrame socket frame) := by
  obtain ⟨o, htracked, hidle⟩ := h
  obtain ⟨o', hdrained, hcause⟩ :=
    htracked.enqueueFrame hsends frame hshort (fun hclose => absurd hclose hframe)
  refine ⟨o', hdrained.tracked, hdrained.loader, hcause hidle.closed, fun hclose => ?_⟩
  rw [hdrained.same.closing]
  rw [hdrained.closeEnqueued, beq_false_of_ne hframe, Bool.or_false] at hclose
  exact hidle.closeEnqueued hclose

/-- After the handshake was started, the channel is closing; an open queue is still open. -/
theorem IsIdle.startClosingHandshake (code : ℤ) (reason : Option UString)
    (hshort : IsShort (s.closePayload code reason)) :
    IsIdle (s.startClosingHandshake socket code reason) ∧
      (s.startClosingHandshake socket code reason).closing = true ∧
      (s.startClosingHandshake socket code reason).receivedClosingHandshake =
        s.receivedClosingHandshake ∧
      (s.outgoingFrameQueueStatus = outgoingFrameQueueOpen →
        (s.startClosingHandshake socket code reason).outgoingFrameQueueStatus =
          outgoingFrameQueueOpen) := by
  rw [WebSocketChannel.startClosingHandshake]
  split
  · rename_i hclosing
    exact ⟨h, hclosing, rfl, fun ho => ho⟩
  · rename_i hclosing
    obtain ⟨o, htracked, hidle⟩ := h
    have hnone : o.closeEnqueued = false := by
      cases hc : o.closeEnqueued with
      | false => rfl
      | true => exact absurd (hidle.closeEnqueued hc) hclosing
    obtain ⟨o', hdrained, hcause⟩ := htracked.enqueueFrame hsends
      (.vector opCodeClose (s.closePayload code reason)) hshort (fun _ => hnone)
    refine ⟨⟨o', ?_, hdrained.loader, hcause hidle.closed, fun _ => rfl⟩, rfl,
      hdrained.same.received, fun ho => (hdrained.stillOpen ho).1⟩
    exact Tracked.effectIf (hdrained.tracked.unrelated rfl) _
      Outbox.Step.didStartClosingHandshake

/-- The loader reports, and its blob goes out. -/
theorem IsIdle.didFinishLoading
    (hstarted : s.blobLoaderStatus = blobLoaderStarted) (hshort : IsShort result) :
    IsIdle (s.didFinishLoading socket result) := by
  obtain ⟨o, htracked, hidle⟩ := h
  obtain ⟨hopen, opCode, blob, rest, result', hfirst, hloader⟩ := htracked.loading (Or.inl hstarted)
  have hwaiting := (htracked.waiting hopen).trans hfirst
  have hloaded : o.loaded = none := htracked.loaded.trans (if_neg hidle.loader)
  rw [WebSocketChannel.didFinishLoading, hloader]
  have hfinished : Tracked
      ({ s with
          blobLoader := some ⟨blob, result⟩
          blobLoaderStatus := blobLoaderFinished }.effect (.finishedLoading blob result))
      { o with loaded := some (blob, result) } := by
    exact { htracked with
      runs := htracked.runs.snoc (Outbox.Step.finishedLoading result hwaiting hloaded)
      loaded := rfl
      loading := fun _ => ⟨hopen, opCode, blob, rest, result, hfirst, rfl⟩
      short := ⟨htracked.short.1, fun _ hnew => by cases hnew; exact hshort⟩ }
  obtain ⟨o', hdrained, hcause⟩ := hfinished.processOutgoingFrameQueue hsends
  refine ⟨o', hdrained.tracked, hdrained.loader, hcause hidle.closed, fun hclose => ?_⟩
  rw [hdrained.same.closing]
  exact hidle.closeEnqueued (hdrained.closeEnqueued ▸ hclose)

omit hsends

/-! ### Received frames -/

theorem IsIdle.skipFrame (frame : FrameData) : IsIdle (s.skipFrame frame) := by
  rw [WebSocketChannel.skipFrame]
  split
  · exact h.unrelated rfl rfl rfl
  · exact h.unrelated rfl rfl rfl

theorem IsIdle.deliverText (data : Bytes) : IsIdle (s.deliverText data) := by
  rw [WebSocketChannel.deliverText]
  split
  · exact h.effect fun o => Outbox.Step.didReceiveMessage _
  · split
    · exact h.unrelated rfl rfl rfl
    · exact h.fail _
    · exact h.effect fun o => Outbox.Step.didReceiveMessage _

theorem IsIdle.processContinuation (frame : FrameData) :
    IsIdle (s.processContinuation frame) := by
  have hskipped : IsIdle (({ s with
      continuousFrameData := s.continuousFrameData ++ frame.payload } : WebSocketChannel).skipFrame
        frame) := by
    apply IsIdle.skipFrame
    exact h.unrelated rfl rfl rfl
  rw [WebSocketChannel.processContinuation]
  split
  · split
    · apply IsIdle.deliverText
      exact hskipped.unrelated rfl rfl rfl
    · split
      · refine IsIdle.effect ?_ fun o => Outbox.Step.didReceiveBinaryData _
        exact hskipped.unrelated rfl rfl rfl
      · exact hskipped.unrelated rfl rfl rfl
  · exact hskipped

theorem IsIdle.startContinuousFrame (frame : FrameData) :
    IsIdle (s.startContinuousFrame frame) := by
  apply IsIdle.skipFrame
  exact h.unrelated rfl rfl rfl

theorem IsIdle.processText (frame : FrameData) : IsIdle (s.processText frame) := by
  rw [WebSocketChannel.processText]
  split
  · exact (h.skipFrame frame).deliverText _
  · exact h.startContinuousFrame frame

theorem IsIdle.processBinary (frame : FrameData) :
    IsIdle (s.processBinary frame) := by
  rw [WebSocketChannel.processBinary]
  split
  · exact (h.skipFrame frame).effect fun o => Outbox.Step.didReceiveBinaryData _
  · exact h.startContinuousFrame frame

include hsends in
theorem IsIdle.processPing (frame : FrameData) (hshort : IsShort frame.payload) :
    IsIdle (s.processPing socket frame) := by
  have henqueued : IsIdle (s.enqueueRawFrame socket opCodePong frame.payload) :=
    h.enqueueFrame hsends (show opCodePong ≠ opCodeClose by decide) hshort
  exact henqueued.skipFrame frame

omit h

theorem outgoingFrameQueueStatus_skipFrame (s : WebSocketChannel) (frame : FrameData) :
    (s.skipFrame frame).outgoingFrameQueueStatus = s.outgoingFrameQueueStatus := by
  rw [skipFrame]
  split <;> rfl

/-- The status after a Close frame, whose reply is in the queue. -/
theorem Tracked.setClosing (h : Tracked s o)
    (hopen : s.outgoingFrameQueueStatus = outgoingFrameQueueOpen)
    (hreceived : s.receivedClosingHandshake = true) :
    Tracked (s.setQueueStatus outgoingFrameQueueClosing)
      { o with status := outgoingFrameQueueClosing } := by
  have hmove : StatusMove o.status outgoingFrameQueueClosing := by
    rw [h.status, hopen]
    exact StatusMove.closing
  have hne : s.outgoingFrameQueueStatus ≠ outgoingFrameQueueClosed := by
    rw [hopen]
    decide
  exact { h with
    runs := h.runs.snoc (Outbox.Step.queueStatus hmove)
    status := rfl
    handle := fun _ => h.handle hne
    handleClosed := fun hclosed => absurd (h.handleClosed hclosed) hne
    waiting := fun _ => h.waiting hne
    loading := fun hloading => ⟨nofun, (h.loading hloading).2⟩
    closing := fun _ => hreceived }

include hsends h

theorem IsIdle.processClose
    (hclient : s.client = true) (hnot : s.receivedClosingHandshake = false) (frame : FrameData) :
    IsIdle (s.processClose socket frame) := by
  -- the first Close frame finds an open queue
  have hopen : s.outgoingFrameQueueStatus = outgoingFrameQueueOpen := by
    obtain ⟨o, htracked, hidle⟩ := h
    cases hstatus : s.outgoingFrameQueueStatus with
    | outgoingFrameQueueOpen => rfl
    | outgoingFrameQueueClosing =>
      rw [htracked.closing hstatus] at hnot
      cases hnot
    | outgoingFrameQueueClosed =>
      rcases hidle.closed hstatus with hreceived | hgone
      · rw [hreceived] at hnot
        cases hnot
      · rw [hgone] at hclient
        cases hclient
  have hskipped : IsIdle (({ s with
      closeEventCode := receivedCloseCode frame.payload
      closeEventReason := receivedCloseReason frame.payload } : WebSocketChannel).skipFrame
        frame) := by
    apply IsIdle.skipFrame
    exact h.unrelated rfl rfl rfl
  have hstatus := outgoingFrameQueueStatus_skipFrame { s with
      closeEventCode := receivedCloseCode frame.payload
      closeEventReason := receivedCloseReason frame.payload } frame
  rw [WebSocketChannel.processClose]
  generalize ({ s with
      closeEventCode := receivedCloseCode frame.payload
      closeEventReason := receivedCloseReason frame.payload } : WebSocketChannel).skipFrame
        frame = skipped at hskipped hstatus ⊢
  obtain ⟨o, htracked, hidle⟩ := hskipped
  have hreceived : IsIdle
      ({ skipped with receivedClosingHandshake := true }.effect
        (.receivedClose (receivedCloseCode frame.payload) (receivedCloseReason frame.payload))) := by
    refine ⟨{ o with closeReceived := true }, ?_, { hidle with closed := fun _ => Or.inl rfl }⟩
    exact { htracked with
      runs := htracked.runs.snoc (Outbox.Step.receivedClose _ _)
      closeReceived := rfl
      closing := fun _ => rfl }
  obtain ⟨⟨o', htracked', hidle'⟩, hclosing, hreceived', hopen'⟩ :=
    hreceived.startClosingHandshake hsends (receivedCloseCode frame.payload)
      (receivedCloseReason frame.payload) isShort_nil
  rw [if_pos hclosing]
  have hset := htracked'.setClosing (hopen' (hstatus.trans hopen)) hreceived'
  obtain ⟨o'', hdrained, hcause⟩ := hset.processOutgoingFrameQueue hsends
  refine ⟨o'', hdrained.tracked, hdrained.loader, hcause (fun hc => by cases hc), fun _ => ?_⟩
  rw [hdrained.same.closing]
  exact hclosing

theorem IsIdle.processFrame
    (hclient : s.client = true) (hnot : s.receivedClosingHandshake = false) :
    IsIdle (s.processFrame socket).1 := by
  rw [WebSocketChannel.processFrame]
  split
  · exact h
  · exact h.fail _
  · rename_i frame _
    have hunmasked : IsIdle { s with buffer := unmaskInPlace s.buffer frame } :=
      h.unrelated rfl rfl rfl
    dsimp only
    split
    · exact hunmasked.fail _
    · rename_i hvalid
      rw [dispatchFrame]
      split
      · exact hunmasked.processContinuation frame
      · split
        · exact hunmasked.processText frame
        · split
          · exact hunmasked.processBinary frame
          · split
            · exact hunmasked.processClose hsends hclient hnot frame
            · split
              · rename_i hping
                exact hunmasked.processPing hsends frame (isShort_of_valid hvalid (by rw [hping]; rfl))
              · exact hunmasked.skipFrame frame

theorem IsIdle.processBuffer (hclient : s.client = true) : IsIdle (s.processBuffer socket).1 := by
  rw [WebSocketChannel.processBuffer]
  split
  · exact h
  · split
    · exact h.unrelated rfl rfl rfl
    · rename_i hnot
      exact h.processFrame hsends hclient (Bool.eq_false_of_not_eq_true hnot)

omit h in
theorem IsIdle.processReceivedFrames : ∀ {fuel : ℕ} {s : WebSocketChannel}, IsIdle s →
      IsIdle (WebSocketChannel.processReceivedFrames socket fuel s)
  | 0, _, h => h
  | fuel + 1, s, h => by
    rw [WebSocketChannel.processReceivedFrames]
    split
    · rename_i hround
      have hclient : s.client = true := by
        simp only [Bool.and_eq_true] at hround
        exact hround.1.1.2
      have hbuffer := h.processBuffer hsends hclient
      dsimp only
      split
      · exact IsIdle.processReceivedFrames hbuffer
      · exact hbuffer
    · exact h

theorem IsIdle.didReceiveSocketStreamData (hhandle : s.handle = true) (data : Bytes) :
    IsIdle (s.didReceiveSocketStreamData socket data) := by
  rw [WebSocketChannel.didReceiveSocketStreamData]
  split
  · exact h
  · split
    · exact h.didCloseSocketStream hhandle
    · split
      · refine IsIdle.didCloseSocketStream ?_ hhandle
        exact h.unrelated rfl rfl rfl
      · split
        · exact h
        · apply IsIdle.processReceivedFrames hsends
          exact h.unrelated rfl rfl rfl

/-! ## Runs -/

omit h hsends in
/-- What an event makes the channel send is short. -/
def Event.IsShort : Event → Prop
  | .sendString message => WebSockets.IsShort (utf8 message)
  | .sendArrayBuffer binaryData => WebSockets.IsShort binaryData
  | .close _ reason => WebSockets.IsShort ([0, 0] ++ utf8 (reason.getD []))
  | .didFinishLoading result => WebSockets.IsShort result
  | _ => True

/-- Every event that is allowed leaves the channel idle. -/
theorem IsIdle.step (hevent : event.Allowed s) (hshort : event.IsShort) :
    IsIdle (s.step socket event) := by
  cases event with
  | sendString message =>
    exact h.enqueueFrame hsends (show opCodeText ≠ opCodeClose by decide) hshort
  | sendArrayBuffer binaryData =>
    exact h.enqueueFrame hsends (show opCodeBinary ≠ opCodeClose by decide) hshort
  | sendBlob binaryData =>
    exact h.enqueueFrame hsends (show opCodeBinary ≠ opCodeClose by decide) trivial
  | close code reason =>
    rw [WebSocketChannel.step, WebSocketChannel.close]
    split
    · refine (h.startClosingHandshake hsends code reason ?_).1
      rw [closePayload]
      split
      · exact hshort
      · exact isShort_nil
    · exact h
  | didReceiveSocketStreamData data => exact h.didReceiveSocketStreamData hsends hevent data
  | didFinishLoading result => exact h.didFinishLoading hsends hevent hshort
  | didFailSocketStream => exact h.didFailSocketStream hevent
  | didFail errorCode => exact h.didFail errorCode
  | didCloseSocketStream => exact h.didCloseSocketStream hevent

omit h in
theorem IsIdle.run :
    ∀ {events : List Event} {s : WebSocketChannel}, IsIdle s → AllowedRun socket s events →
      (∀ event ∈ events, event.IsShort) → IsIdle (s.run socket events)
  | [], _, h, _, _ => h
  | event :: events, s, h, hallowed, hshort => by
    have hstep := h.step hsends hallowed.1 (hshort event List.mem_cons_self)
    have hrest := hstep.run hallowed.2 fun e he => hshort e (List.mem_cons_of_mem _ he)
    exact hrest

omit hsends h

/-- A socket that takes everything. -/
def willingSocket : SocketStreamHandle := ⟨fun _ => .taken, fun _ => Vector.replicate 4 0, true⟩

/-- A socket whose writes fail, with room for the bytes in its buffer. -/
def failingSocket : SocketStreamHandle :=
  ⟨fun _ => .failed true, fun _ => Vector.replicate 4 0, true⟩

end Socket

end WebSocketChannel

end WebSockets
end WebKit
