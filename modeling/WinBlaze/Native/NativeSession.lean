import WinBlaze.Core.Scan
import Mathlib.Algebra.BigOperators.Group.List.Basic
import Mathlib.Logic.Relation

/-!
# The end of a scan session

The threads of a scan send batches of events into a bounded channel, and a worker forwards them. It
ends when no sender is left, and one of these is the controller's. A session is destroyed by
waiting for all of them.
-/

namespace WinBlaze

/-- What the thread of a scan does next: it sends a batch, or it walks the directories with workers
that each send some batches. -/
inductive ScanPart
  | batch
  | walk (workers : List ℕ)
  deriving DecidableEq

/-- `forward_events` -/
inductive Forwarder
  | receiving
  | forwarding (batch : List ScanEvent)
  | finishing
  | ended (panicked : Bool)

/-- The calls of `NativeSession::join`. -/
inductive JoinCall
  | cancel
  | joinScan
  | dropController
  | joinWorker
  deriving DecidableEq

structure NativeSession where
  parts : List ScanPart
  /-- How many batches each worker of the walk still sends. -/
  workers : List ℕ := []
  scanning : Bool := true
  cancelled : Bool := false
  controller : Bool := true
  channel : List (List ScanEvent) := []
  forwarder : Forwarder := .receiving
  /-- What `wb_scan_session_destroy` still has to do, once it is called. -/
  closing : Option (List JoinCall) := none
  sent : List (List ScanEvent) := []
  /-- Batches for which there was no receiver any more. -/
  lost : List (List ScanEvent) := []
  forwarded : List (List ScanEvent) := []

namespace NativeSession

/-- The capacity of `recycling_bounded_channel`. -/
def batchCapacity : ℕ := 16

def join : List JoinCall := [.cancel, .joinScan, .dropController, .joinWorker]

variable (session : NativeSession)

def HasEnded : Prop := ∃ panicked, session.forwarder = .ended panicked

/-- The walk is joined before the thread of the scan goes on. -/
def IsJoined : Prop := ∀ left ∈ session.workers, left = 0

/-- Sending does not have to wait. -/
def HasRoom : Prop := session.HasEnded ∨ session.channel.length < batchCapacity

/-- `EventBatchSender::send`: a batch is dropped when the receiver is gone. -/
def send (batch : List ScanEvent) : NativeSession :=
  match session.forwarder with
  | .ended _ => { session with lost := session.lost ++ [batch] }
  | _ => { session with channel := session.channel ++ [batch], sent := session.sent ++ [batch] }

/-- The batch that the worker has taken. -/
def inHand : List (List ScanEvent) :=
  match session.forwarder with
  | .forwarding batch => [batch]
  | _ => []

/-- A call of the owner comes back. -/
inductive Calls : JoinCall → NativeSession → Prop
  | cancel : Calls .cancel { session with cancelled := true }
  | joinScan (hscan : session.scanning = false) : Calls .joinScan session
  | dropController : Calls .dropController { session with controller := false }
  | joinWorker (hworker : session.HasEnded) : Calls .joinWorker session

inductive Step : NativeSession → Prop
  | sendBatch {rest : List ScanPart} (batch : List ScanEvent) (hparts : session.parts = .batch :: rest)
      (hjoined : session.IsJoined) (hroom : session.HasRoom) :
      Step ({ session with parts := rest }.send batch)
  | walk {counts : List ℕ} {rest : List ScanPart} (hparts : session.parts = .walk counts :: rest)
      (hjoined : session.IsJoined) : Step { session with parts := rest, workers := counts }
  | workerSends {left right : List ℕ} {count : ℕ} (batch : List ScanEvent)
      (hworkers : session.workers = left ++ (count + 1) :: right) (hroom : session.HasRoom) :
      Step ({ session with workers := left ++ count :: right }.send batch)
  /-- A scan that is cancelled leaves out what it has not begun. -/
  | skipPart {part : ScanPart} {rest : List ScanPart} (hcancelled : session.cancelled = true)
      (hparts : session.parts = part :: rest) (hjoined : session.IsJoined) :
      Step { session with parts := rest }
  | workerSkips {left right : List ℕ} {count : ℕ} (hcancelled : session.cancelled = true)
      (hworkers : session.workers = left ++ (count + 1) :: right) :
      Step { session with workers := left ++ count :: right }
  | endScan (hscan : session.scanning = true) (hparts : session.parts = []) (hjoined : session.IsJoined) :
      Step { session with scanning := false }
  | receive {batch : List ScanEvent} {rest : List (List ScanEvent)}
      (hforwarder : session.forwarder = .receiving) (hchannel : session.channel = batch :: rest) :
      Step { session with channel := rest, forwarder := .forwarding batch }
  /-- The callbacks of the events of a batch. -/
  | forward {batch : List ScanEvent} (hforwarder : session.forwarder = .forwarding batch) :
      Step { session with forwarder := .receiving, forwarded := session.forwarded ++ [batch] }
  | disconnect (hforwarder : session.forwarder = .receiving) (hchannel : session.channel = [])
      (hscan : session.scanning = false) (hcontroller : session.controller = false) :
      Step { session with forwarder := .finishing }
  | finish (hforwarder : session.forwarder = .finishing) :
      Step { session with forwarder := .ended false }
  /-- The receiver is dropped, with what is in the channel. -/
  | panic (hworker : ¬ session.HasEnded) :
      Step { session with forwarder := .ended true, channel := [] }
  | cancel (hopen : session.closing = none) : Step { session with cancelled := true }
  | destroy (hopen : session.closing = none) : Step { session with closing := some join }
  | call {call : JoinCall} {rest : List JoinCall} {next : NativeSession}
      (hclosing : session.closing = some (call :: rest)) (hcall : session.Calls call next) :
      Step { next with closing := some rest }

/-- So many steps lead from one state to the other. -/
inductive Steps : ℕ → NativeSession → NativeSession → Prop
  | refl (session : NativeSession) : Steps 0 session session
  | head {count : ℕ} {session next last : NativeSession} (hstep : session.Step next)
      (hsteps : Steps count next last) : Steps (count + 1) session last

/-! ## The invariant -/

/-- A call of the owner has come back. -/
def Made : JoinCall → Prop
  | .cancel => session.cancelled = true
  | .joinScan => session.scanning = false
  | .dropController => session.controller = false
  | .joinWorker => session.HasEnded

structure Sound : Prop where
  joined : session.scanning = false → session.parts = [] ∧ session.IsJoined
  order : session.forwarder ≠ .ended true →
    session.forwarded ++ session.inHand ++ session.channel = session.sent ∧ session.lost = []
  begun : session.forwarded <+: session.sent
  dropped : session.HasEnded → session.channel = []
  ended : session.forwarder = .finishing ∨ session.forwarder = .ended false →
    session.channel = [] ∧ session.scanning = false ∧ session.controller = false
  closing : ∀ calls, session.closing = some calls →
    ∃ made, join = made ++ calls ∧ ∀ call ∈ made, session.Made call

theorem sound_initial (parts : List ScanPart) : Sound { parts := parts } where
  joined h := by cases h
  order _ := ⟨rfl, rfl⟩
  begun := List.prefix_refl _
  dropped := by
    rintro ⟨panicked, h⟩
    cases h
  ended := by
    rintro (h | h)
    · cases h
    · cases h
  closing _ h := by cases h

section Sound

variable {session} {next : NativeSession}

theorem send_of_ended {panicked : Bool} (h : session.forwarder = .ended panicked) (batch : List ScanEvent) :
    session.send batch = { session with lost := session.lost ++ [batch] } := by
  rw [send, h]

theorem send_of_not_hasEnded (h : ¬ session.HasEnded) (batch : List ScanEvent) :
    session.send batch =
      { session with channel := session.channel ++ [batch], sent := session.sent ++ [batch] } := by
  cases hforwarder : session.forwarder with
  | receiving | forwarding _ | finishing => rw [send, hforwarder]
  | ended panicked => exact absurd ⟨panicked, hforwarder⟩ h

/-- A batch comes into the channel or is lost, and nothing else changes. -/
theorem send_cases (batch : List ScanEvent) :
    (∃ lost, session.send batch = { session with lost := lost }) ∨
      session.send batch =
        { session with channel := session.channel ++ [batch], sent := session.sent ++ [batch] } := by
  by_cases hworker : session.HasEnded
  · obtain ⟨panicked, hforwarder⟩ := hworker
    exact .inl ⟨_, send_of_ended hforwarder batch⟩
  · exact .inr (send_of_not_hasEnded hworker batch)

theorem Made.mono {call : JoinCall} (h : session.Made call)
    (hcancelled : session.cancelled = true → next.cancelled = true)
    (hscan : session.scanning = false → next.scanning = false)
    (hcontroller : session.controller = false → next.controller = false)
    (hworker : session.HasEnded → next.HasEnded) : next.Made call := by
  cases call with
  | cancel => exact hcancelled h
  | joinScan => exact hscan h
  | dropController => exact hcontroller h
  | joinWorker => exact hworker h

/-- While the scan runs, only its own thread and its workers count. -/
theorem Sound.scan (h : session.Sound) (hscan : session.scanning = true) (parts : List ScanPart)
    (workers : List ℕ) : Sound { session with parts := parts, workers := workers } where
  joined hended := absurd (hscan.symm.trans hended) (by decide)
  order := h.order
  begun := h.begun
  dropped := h.dropped
  ended := h.ended
  closing := h.closing

theorem Sound.send (h : session.Sound) (hscan : session.scanning = true) (batch : List ScanEvent) :
    (session.send batch).Sound := by
  by_cases hworker : session.HasEnded
  · obtain ⟨panicked, hforwarder⟩ := hworker
    have hpanicked : panicked = true := by
      cases panicked with
      | true => rfl
      | false => exact absurd (hscan.symm.trans (h.ended (.inr hforwarder)).2.1) (by decide)
    subst hpanicked
    rw [send_of_ended hforwarder]
    exact ⟨h.joined, fun hlive ↦ absurd hforwarder hlive, h.begun, h.dropped, h.ended, h.closing⟩
  · rw [send_of_not_hasEnded hworker]
    refine ⟨h.joined, fun hlive ↦ ⟨?_, (h.order hlive).2⟩, h.begun.trans (List.prefix_append _ _),
      fun hended ↦ absurd hended hworker, fun hended ↦ ?_, h.closing⟩
    · change session.forwarded ++ session.inHand ++ (session.channel ++ [batch]) = session.sent ++ [batch]
      rw [← List.append_assoc, (h.order hlive).1]
    · exact absurd (hscan.symm.trans (h.ended hended).2.1) (by decide)

theorem Sound.scanning_of_part (h : session.Sound) {part : ScanPart} {rest : List ScanPart}
    (hparts : session.parts = part :: rest) : session.scanning = true := by
  cases hscan : session.scanning with
  | true => rfl
  | false => exact absurd (hparts.symm.trans (h.joined hscan).1) (List.cons_ne_nil _ _)

theorem Sound.scanning_of_worker (h : session.Sound) {left right : List ℕ} {count : ℕ}
    (hworkers : session.workers = left ++ (count + 1) :: right) : session.scanning = true := by
  cases hscan : session.scanning with
  | true => rfl
  | false =>
      have hmem : count + 1 ∈ session.workers := hworkers ▸ List.mem_append_right _ List.mem_cons_self
      exact absurd ((h.joined hscan).2 _ hmem) (Nat.succ_ne_zero _)

theorem Sound.call (h : session.Sound) {call : JoinCall} {rest : List JoinCall}
    (hclosing : session.closing = some (call :: rest)) (hcall : session.Calls call next) :
    Sound { next with closing := some rest } := by
  obtain ⟨made, hjoin, hmade⟩ := h.closing _ hclosing
  have hrest : join = (made ++ [call]) ++ rest := by rw [hjoin, List.append_assoc, List.singleton_append]
  have hclosed : ∀ {last : NativeSession}, (∀ call ∈ made, last.Made call) → last.Made call →
      ∀ calls, some rest = some calls → ∃ made, join = made ++ calls ∧ ∀ call ∈ made, last.Made call := by
    rintro last hbefore hlast calls ⟨⟩
    refine ⟨_, hrest, fun other hother ↦ ?_⟩
    rcases List.mem_append.mp hother with hother | hother
    · exact hbefore other hother
    · exact List.mem_singleton.mp hother ▸ hlast
  cases hcall with
  | cancel =>
      refine ⟨h.joined, h.order, h.begun, h.dropped, h.ended, hclosed (fun other hother ↦ ?_) rfl⟩
      exact (hmade other hother).mono (fun _ ↦ rfl) id id id
  | joinScan hscan => exact ⟨h.joined, h.order, h.begun, h.dropped, h.ended, hclosed hmade hscan⟩
  | dropController =>
      refine ⟨h.joined, h.order, h.begun, h.dropped, fun hended ↦ ?_,
        hclosed (fun other hother ↦ ?_) rfl⟩
      · exact ⟨(h.ended hended).1, (h.ended hended).2.1, rfl⟩
      · exact (hmade other hother).mono id id (fun _ ↦ rfl) id
  | joinWorker hworker => exact ⟨h.joined, h.order, h.begun, h.dropped, h.ended, hclosed hmade hworker⟩

/-- The worker takes a step of its own, and does not come back when it has ended. -/
theorem Sound.closing_of_worker (h : session.Sound) {forwarder : Forwarder}
    {channel forwarded : List (List ScanEvent)} (hworker : ¬ session.HasEnded) :
    ∀ calls, session.closing = some calls → ∃ made, join = made ++ calls ∧ ∀ call ∈ made,
      Made { session with forwarder := forwarder, channel := channel, forwarded := forwarded } call := by
  intro calls hclosing
  obtain ⟨made, hjoin, hmade⟩ := h.closing calls hclosing
  exact ⟨made, hjoin, fun call hcall ↦ (hmade call hcall).mono id id id fun hended ↦ absurd hended hworker⟩

theorem not_hasEnded {forwarder : Forwarder} (h : session.forwarder = forwarder)
    (hlive : ∀ panicked, forwarder ≠ .ended panicked) : ¬ session.HasEnded := by
  rintro ⟨panicked, hended⟩
  exact hlive panicked (h.symm.trans hended)

theorem Sound.step (h : session.Sound) (hstep : session.Step next) : next.Sound := by
  cases hstep with
  | @sendBatch rest batch hparts hjoined hroom =>
      have hscan := h.scanning_of_part hparts
      exact (h.scan hscan rest session.workers).send hscan batch
  | walk hparts hjoined => exact h.scan (h.scanning_of_part hparts) _ _
  | @workerSends left right count batch hworkers hroom =>
      have hscan := h.scanning_of_worker hworkers
      exact (h.scan hscan session.parts (left ++ count :: right)).send hscan batch
  | skipPart hcancelled hparts hjoined => exact h.scan (h.scanning_of_part hparts) _ session.workers
  | workerSkips hcancelled hworkers => exact h.scan (h.scanning_of_worker hworkers) session.parts _
  | endScan hscan hparts hjoined =>
      refine ⟨fun _ ↦ ⟨hparts, hjoined⟩, h.order, h.begun, h.dropped, fun hended ↦ ?_,
        fun calls hclosing ↦ ?_⟩
      · exact ⟨(h.ended hended).1, rfl, (h.ended hended).2.2⟩
      · obtain ⟨made, hjoin, hmade⟩ := h.closing calls hclosing
        exact ⟨made, hjoin, fun call hcall ↦ (hmade call hcall).mono id (fun _ ↦ rfl) id id⟩
  | @receive batch rest hforwarder hchannel =>
      have hworker := not_hasEnded hforwarder (by simp)
      have horder := h.order (by simp [hforwarder])
      refine ⟨h.joined, fun _ ↦ ⟨?_, horder.2⟩, h.begun, ?_, by simp, h.closing_of_worker hworker⟩
      · simpa [inHand, hforwarder, hchannel] using horder.1
      · rintro ⟨panicked, hended⟩
        cases hended
  | @forward batch hforwarder =>
      have hworker := not_hasEnded hforwarder (by simp)
      have horder := h.order (by simp [hforwarder])
      have hall : session.forwarded ++ [batch] ++ session.channel = session.sent := by
        simpa [inHand, hforwarder] using horder.1
      refine ⟨h.joined, fun _ ↦ ⟨?_, horder.2⟩, ⟨_, hall⟩, ?_, by simp, h.closing_of_worker hworker⟩
      · simpa [inHand] using hall
      · rintro ⟨panicked, hended⟩
        cases hended
  | disconnect hforwarder hchannel hscan hcontroller =>
      have hworker := not_hasEnded hforwarder (by simp)
      have horder := h.order (by simp [hforwarder])
      refine ⟨h.joined, fun _ ↦ ⟨?_, horder.2⟩, h.begun, fun _ ↦ hchannel,
        fun _ ↦ ⟨hchannel, hscan, hcontroller⟩, h.closing_of_worker hworker⟩
      simpa [inHand, hforwarder] using horder.1
  | finish hforwarder =>
      have hworker := not_hasEnded hforwarder (by simp)
      have horder := h.order (by simp [hforwarder])
      have hended := h.ended (.inl hforwarder)
      refine ⟨h.joined, fun _ ↦ ⟨?_, horder.2⟩, h.begun, fun _ ↦ hended.1, fun _ ↦ hended,
        h.closing_of_worker hworker⟩
      simpa [inHand, hforwarder] using horder.1
  | panic hworker =>
      exact ⟨h.joined, fun hlive ↦ absurd rfl hlive, h.begun, fun _ ↦ rfl, by simp,
        h.closing_of_worker hworker⟩
  | cancel hopen =>
      refine ⟨h.joined, h.order, h.begun, h.dropped, h.ended, fun calls hclosing ↦ ?_⟩
      exact absurd (hopen.symm.trans hclosing) (by simp)
  | destroy hopen =>
      refine ⟨h.joined, h.order, h.begun, h.dropped, h.ended, ?_⟩
      rintro calls ⟨⟩
      exact ⟨[], rfl, fun call hcall ↦ absurd hcall List.not_mem_nil⟩
  | call hclosing hcall => exact h.call hclosing hcall

end Sound

/-! ## What is left to do -/

/-- A batch is sent, received and forwarded. -/
def partSteps : ScanPart → ℕ
  | .batch => 3
  | .walk counts => 3 * counts.sum + 1

def workerSteps : Forwarder → ℕ
  | .receiving => 2
  | .forwarding _ => 3
  | .finishing => 1
  | .ended _ => 0

/-- How many steps there still are once the session is being destroyed. -/
def distance : ℕ :=
  (session.parts.map partSteps).sum + 3 * session.workers.sum + session.scanning.toNat +
    2 * session.channel.length + workerSteps session.forwarder + (session.closing.getD []).length

section Distance

variable {session} {next : NativeSession}

theorem distance_send_le (batch : List ScanEvent) :
    (session.send batch).distance ≤ session.distance + 2 := by
  rcases @send_cases session batch with ⟨lost, hsend⟩ | hsend
  · rw [hsend]
    exact Nat.le_add_right _ _
  · rw [hsend]
    simp only [distance, List.length_append, List.length_singleton]
    omega

theorem closing_send (batch : List ScanEvent) : (session.send batch).closing = session.closing := by
  rcases @send_cases session batch with ⟨lost, hsend⟩ | hsend
  · rw [hsend]
  · rw [hsend]

theorem forwarder_send (batch : List ScanEvent) : (session.send batch).forwarder = session.forwarder := by
  rcases @send_cases session batch with ⟨lost, hsend⟩ | hsend
  · rw [hsend]
  · rw [hsend]

theorem IsJoined.sum_eq (h : session.IsJoined) : session.workers.sum = 0 := List.sum_eq_zero h

theorem workerSteps_pos (h : ¬ session.HasEnded) : 0 < workerSteps session.forwarder := by
  cases hforwarder : session.forwarder with
  | ended panicked => exact absurd ⟨panicked, hforwarder⟩ h
  | receiving | forwarding _ | finishing => exact Nat.succ_pos _

/-- Once the session is being destroyed, every step is one of the last. -/
theorem Step.distance_lt (hstep : session.Step next) {calls : List JoinCall}
    (hclosing : session.closing = some calls) :
    next.distance < session.distance ∧ ∃ rest, next.closing = some rest := by
  cases hstep with
  | @sendBatch rest batch hparts hjoined hroom =>
      refine ⟨?_, calls, (closing_send batch).trans hclosing⟩
      have hsend := @distance_send_le { session with parts := rest } batch
      simp only [distance, hparts, List.map_cons, List.sum_cons, partSteps] at hsend ⊢
      omega
  | walk hparts hjoined =>
      refine ⟨?_, calls, hclosing⟩
      have hsum := hjoined.sum_eq
      simp only [distance, hparts, List.map_cons, List.sum_cons, partSteps]
      omega
  | @workerSends left right count batch hworkers hroom =>
      refine ⟨?_, calls, (closing_send batch).trans hclosing⟩
      have hsend := @distance_send_le { session with workers := left ++ count :: right } batch
      simp only [distance, hworkers, List.sum_append, List.sum_cons] at hsend ⊢
      omega
  | @skipPart part rest hcancelled hparts hjoined =>
      refine ⟨?_, calls, hclosing⟩
      have hpos : 0 < partSteps part := by
        cases part with
        | batch => exact Nat.succ_pos _
        | walk counts => exact Nat.succ_pos _
      simp only [distance, hparts, List.map_cons, List.sum_cons]
      omega
  | workerSkips hcancelled hworkers =>
      refine ⟨?_, calls, hclosing⟩
      simp only [distance, hworkers, List.sum_append, List.sum_cons]
      omega
  | endScan hscan hparts hjoined =>
      refine ⟨?_, calls, hclosing⟩
      simp only [distance, hscan, Bool.toNat_true, Bool.toNat_false]
      omega
  | receive hforwarder hchannel =>
      refine ⟨?_, calls, hclosing⟩
      simp only [distance, hforwarder, hchannel, List.length_cons, workerSteps]
      omega
  | forward hforwarder =>
      refine ⟨?_, calls, hclosing⟩
      simp only [distance, hforwarder, workerSteps]
      omega
  | disconnect hforwarder hchannel hscan hcontroller =>
      refine ⟨?_, calls, hclosing⟩
      simp only [distance, hforwarder, workerSteps]
      omega
  | finish hforwarder =>
      refine ⟨?_, calls, hclosing⟩
      simp only [distance, hforwarder, workerSteps]
      omega
  | panic hworker =>
      refine ⟨?_, calls, hclosing⟩
      have hpos := workerSteps_pos hworker
      have hended : workerSteps (.ended true) = 0 := rfl
      simp only [distance, List.length_nil, hended]
      omega
  | cancel hopen => exact absurd (hopen.symm.trans hclosing) (by simp)
  | destroy hopen => exact absurd (hopen.symm.trans hclosing) (by simp)
  | @call call rest last hcalls hcall =>
      refine ⟨?_, rest, rfl⟩
      cases hcall with
      | cancel | joinScan _ | dropController | joinWorker _ =>
          simp only [distance, hcalls, Option.getD_some, List.length_cons]
          omega

theorem Steps.le_distance {count : ℕ} (hsteps : Steps count session next) {calls : List JoinCall}
    (hclosing : session.closing = some calls) : count ≤ session.distance := by
  induction hsteps generalizing calls with
  | refl => exact Nat.zero_le _
  | head hstep _ ih =>
      obtain ⟨hless, rest, hrest⟩ := hstep.distance_lt hclosing
      have hle := ih hrest
      omega

end Distance

/-! ## Nobody waits for ever -/

section Progress

variable {session}

/-- A step that is not a panic of the worker. -/
def CanStep (session : NativeSession) : Prop :=
  ∃ next, session.Step next ∧ (next.forwarder = .ended true → session.forwarder = .ended true)

/-- A scan goes on unless it has to wait for room in the channel. -/
theorem canStep_of_hasRoom (hscan : session.scanning = true) (hroom : session.HasRoom) :
    session.CanStep := by
  by_cases hjoined : session.IsJoined
  · cases hparts : session.parts with
    | nil => exact ⟨_, .endScan hscan hparts hjoined, id⟩
    | cons part rest =>
        cases part with
        | batch =>
            refine ⟨_, .sendBatch [] hparts hjoined hroom, fun h ↦ ?_⟩
            rw [forwarder_send] at h
            exact h
        | walk counts => exact ⟨_, .walk hparts hjoined, id⟩
  · obtain ⟨left, hmem, hpos⟩ : ∃ left ∈ session.workers, left ≠ 0 := by
      simpa only [IsJoined, not_forall, exists_prop] using hjoined
    obtain ⟨before, after, hworkers⟩ := List.append_of_mem hmem
    obtain ⟨count, rfl⟩ := Nat.exists_eq_succ_of_ne_zero hpos
    refine ⟨_, .workerSends [] hworkers hroom, fun h ↦ ?_⟩
    rw [forwarder_send] at h
    exact h

/-- The worker waits only for a batch or for the senders. -/
theorem canStep_of_worker (hworker : ¬ session.HasEnded)
    (hbusy : session.forwarder = .receiving → session.channel ≠ []) : session.CanStep := by
  cases hforwarder : session.forwarder with
  | receiving =>
      obtain ⟨batch, rest, hchannel⟩ := List.exists_cons_of_ne_nil (hbusy hforwarder)
      exact ⟨_, .receive hforwarder hchannel, fun h ↦ by cases h⟩
  | forwarding batch => exact ⟨_, .forward hforwarder, fun h ↦ by cases h⟩
  | finishing => exact ⟨_, .finish hforwarder, fun h ↦ by cases h⟩
  | ended panicked => exact absurd ⟨panicked, hforwarder⟩ hworker

/-- Whether the channel is full or empty, somebody goes on while the scan runs. -/
theorem canStep_of_scanning (hscan : session.scanning = true) : session.CanStep := by
  by_cases hworker : session.HasEnded
  · exact canStep_of_hasRoom hscan (.inl hworker)
  · by_cases hchannel : session.channel = []
    · apply canStep_of_hasRoom hscan
      right
      rw [hchannel]
      decide
    · exact canStep_of_worker hworker fun _ ↦ hchannel

theorem made_of_joinWorker {made rest : List JoinCall} (h : join = made ++ .joinWorker :: rest) :
    .joinScan ∈ made ∧ .dropController ∈ made := by
  rcases made with _ | ⟨first, _ | ⟨second, _ | ⟨third, more⟩⟩⟩
  · simp [join] at h
  · simp [join] at h
  · simp [join] at h
  · simp only [join, List.cons_append, List.cons.injEq] at h
    obtain ⟨rfl, rfl, rfl, -⟩ := h
    simp

theorem Sound.canStep (h : session.Sound) {call : JoinCall} {rest : List JoinCall}
    (hclosing : session.closing = some (call :: rest)) : session.CanStep := by
  cases call with
  | cancel => exact ⟨_, .call hclosing .cancel, id⟩
  | joinScan =>
      cases hscan : session.scanning with
      | true => exact canStep_of_scanning hscan
      | false => exact ⟨_, .call hclosing (.joinScan hscan), id⟩
  | dropController => exact ⟨_, .call hclosing .dropController, id⟩
  | joinWorker =>
      by_cases hworker : session.HasEnded
      · exact ⟨_, .call hclosing (.joinWorker hworker), id⟩
      · obtain ⟨made, hjoin, hmade⟩ := h.closing _ hclosing
        -- The scan has been joined and the controller dropped before.
        obtain ⟨hscan, hcontroller⟩ := made_of_joinWorker hjoin
        have hscan : session.scanning = false := hmade .joinScan hscan
        have hcontroller : session.controller = false := hmade .dropController hcontroller
        by_cases hdone : session.forwarder = .receiving ∧ session.channel = []
        · exact ⟨_, .disconnect hdone.1 hdone.2 hscan hcontroller, fun h ↦ by cases h⟩
        · exact canStep_of_worker hworker fun hforwarder hchannel ↦ hdone ⟨hforwarder, hchannel⟩

/-- Nothing happens any more when the last call has come back. -/
theorem Sound.not_step (h : session.Sound) (hclosing : session.closing = some []) (next : NativeSession) :
    ¬ session.Step next := by
  obtain ⟨made, hjoin, hmade⟩ := h.closing _ hclosing
  rw [List.append_nil] at hjoin
  subst hjoin
  have hscan : session.scanning = false := hmade .joinScan (by simp [join])
  have hworker : session.HasEnded := hmade .joinWorker (by simp [join])
  obtain ⟨hparts, hjoined⟩ := h.joined hscan
  obtain ⟨panicked, hforwarder⟩ := hworker
  intro hstep
  cases hstep with
  | sendBatch _ hnext _ _ => exact absurd (hnext.symm.trans hparts) (List.cons_ne_nil _ _)
  | walk hnext _ => exact absurd (hnext.symm.trans hparts) (List.cons_ne_nil _ _)
  | workerSends _ hworkers _ =>
      exact absurd (h.scanning_of_worker hworkers) (by rw [hscan]; decide)
  | skipPart _ hnext _ => exact absurd (hnext.symm.trans hparts) (List.cons_ne_nil _ _)
  | workerSkips _ hworkers => exact absurd (h.scanning_of_worker hworkers) (by rw [hscan]; decide)
  | endScan hnext _ _ => exact absurd (hnext.symm.trans hscan) (by decide)
  | receive hnext _ => exact absurd (hnext.symm.trans hforwarder) (by simp)
  | forward hnext => exact absurd (hnext.symm.trans hforwarder) (by simp)
  | disconnect hnext _ _ _ => exact absurd (hnext.symm.trans hforwarder) (by simp)
  | finish hnext => exact absurd (hnext.symm.trans hforwarder) (by simp)
  | panic hlive => exact hlive ⟨panicked, hforwarder⟩
  | cancel hopen => exact absurd (hopen.symm.trans hclosing) (by simp)
  | destroy hopen => exact absurd (hopen.symm.trans hclosing) (by simp)
  | call hcalls _ => exact absurd (hcalls.symm.trans hclosing) (by simp)

end Progress

theorem Sound.steps {count : ℕ} {session last : NativeSession} (h : session.Sound)
    (hsteps : Steps count session last) : last.Sound := by
  induction hsteps with
  | refl => exact h
  | head hstep _ ih => exact ih (h.step hstep)

/-- Whatever the threads of a session do in whatever order: the worker forwards the batches that were
sent, in their order. Destroying the session comes to its end, since somebody can go on until then
and only for so many steps. After it nothing happens any more, and unless the worker has panicked,
every batch was forwarded. -/
theorem destroy_returns {parts : List ScanPart} {count : ℕ} {session : NativeSession}
    (hsteps : Steps count { parts := parts } session) :
    session.forwarded <+: session.sent ∧ ∀ calls, session.closing = some calls →
      (∀ more last, Steps more session last → more ≤ session.distance) ∧
      (calls ≠ [] → session.CanStep) ∧
      (calls = [] → (∀ next, ¬ session.Step next) ∧ session.scanning = false ∧ session.HasEnded ∧
        (session.forwarder = .ended false → session.forwarded = session.sent ∧ session.lost = [])) := by
  have h := (sound_initial parts).steps hsteps
  refine ⟨h.begun, fun calls hclosing ↦ ⟨fun more last hmore ↦ hmore.le_distance hclosing,
    fun hcalls ↦ ?_, ?_⟩⟩
  · obtain ⟨call, rest, rfl⟩ := List.exists_cons_of_ne_nil hcalls
    exact h.canStep hclosing
  · rintro rfl
    obtain ⟨made, hjoin, hmade⟩ := h.closing _ hclosing
    rw [List.append_nil] at hjoin
    subst hjoin
    refine ⟨h.not_step hclosing, hmade .joinScan (by simp [join]), hmade .joinWorker (by simp [join]),
      fun hended ↦ ?_⟩
    have horder := h.order (by simp [hended])
    refine ⟨?_, horder.2⟩
    simpa [inHand, hended, h.dropped ⟨false, hended⟩] using horder.1

/-- A scan that is destroyed while it runs sends one of its two batches. -/
theorem destroy_returns_cancelled : ∃ session,
    Steps 12 { parts := [.batch, .batch] } session ∧ session.forwarded = session.sent ∧
      session.lost = [] ∧ ∀ next, ¬ session.Step next := by
  have hjoined : ∀ session : NativeSession, session.workers = [] → session.IsJoined := by
    intro session hnone left hleft
    rw [hnone] at hleft
    exact absurd hleft List.not_mem_nil
  have hsteps : Steps 12 { parts := [.batch, .batch] }
      { parts := [], scanning := false, cancelled := true, controller := false,
        forwarder := .ended false, closing := some [], sent := [[]], forwarded := [[]] } := by
    apply Steps.head (.destroy rfl)
    apply Steps.head (.call rfl .cancel)
    apply Steps.head (.sendBatch [] rfl (hjoined _ rfl) (.inr (by decide)))
    apply Steps.head (.receive rfl rfl)
    apply Steps.head (.skipPart rfl rfl (hjoined _ rfl))
    apply Steps.head (.endScan rfl rfl (hjoined _ rfl))
    apply Steps.head (.call rfl (.joinScan rfl))
    apply Steps.head (.forward rfl)
    apply Steps.head (.call rfl .dropController)
    apply Steps.head (.disconnect rfl rfl rfl rfl)
    apply Steps.head (.finish rfl)
    apply Steps.head (.call rfl (.joinWorker ⟨false, rfl⟩))
    exact Steps.refl _
  have hreturned := ((destroy_returns hsteps).2 [] rfl).2.2 rfl
  have hall := hreturned.2.2.2 rfl
  exact ⟨_, hsteps, hall.1, hall.2, hreturned.1⟩

end NativeSession

end WinBlaze
