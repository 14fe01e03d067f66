import WinBlaze.Scanner.EventDelivery

/-!
# Every event arrives once

The batches that were sent, the buffer and the event in the hand of the producer
are what was emitted, and the pool holds storage only.
-/

namespace WinBlaze

open Arena (AllEmpty)

/-! ## The invariant -/

/-- The batch that is being sent. -/
def ProducerPhase.batches : ProducerPhase → List (List ScanEvent)
  | .sending batch _ => [batch.items]
  | _ => []

/-- The event that is not in the buffer yet. -/
def ProducerPhase.held : ProducerPhase → List ScanEvent
  | .queueing event => [event]
  | _ => []

/-- The events of a batch that are still to be consumed. -/
def ConsumerPhase.left : ConsumerPhase → List ScanEvent
  | .draining batch => batch.items
  | _ => []

namespace EventDelivery

/-- The batches in the order in which they are sent. -/
def batches (state : EventDelivery) : List (List ScanEvent) :=
  state.received ++ state.channel.map Arena.items ++ state.producer.batches

/-- What holds also before a full buffer is handed over. -/
structure Ordered (config : ScanPipelineConfig) (calls : List PipelineCall)
    (state : EventDelivery) : Prop where
  order : state.batches.flatten ++ state.pipeline.buffer.items ++ state.producer.held =
    state.emitted
  sized : ∀ batch ∈ state.batches, batch ≠ [] ∧ batch.length ≤ max config.batchSize 1
  fits : state.pipeline.buffer.items.length ≤ max config.batchSize 1
  pooled : AllEmpty state.pool
  drained : state.consumed ++ state.consumer.left = state.received.flatten
  sending : ∀ batch last, state.producer = .sending batch last →
    state.pipeline.buffer.items = [] ∧ (last = true → state.calls = [])
  dropped : state.producer = .dropped → state.pipeline.buffer.items = [] ∧ state.calls = []
  program : state.emitted ++ PipelineCall.emitted state.pipeline.progress state.calls =
    PipelineCall.emitted default calls
  finished : state.consumer = .finished → state.channel = [] ∧ state.producer = .dropped

/-- What holds between all steps. -/
structure Sound (config : ScanPipelineConfig) (calls : List PipelineCall)
    (state : EventDelivery) : Prop extends Ordered config calls state where
  small : state.pipeline.buffer.items.length < max config.batchSize 1
  forced : state.producer = .calling → ∀ event ∈ state.emitted.getLast?,
    event.forcesFlush = true → state.pipeline.buffer.items = []

variable {config : ScanPipelineConfig} {sender : EventBatchSender} {maxCapacity : ℕ}
  {calls : List PipelineCall} {state next : EventDelivery}

theorem sound_initial (config : ScanPipelineConfig) (calls : List PipelineCall) :
    (initial calls).Sound config calls where
  order := rfl
  sized := by simp [batches, initial, ProducerPhase.batches]
  fits := Nat.zero_le _
  pooled := by simp [AllEmpty, initial]
  drained := rfl
  sending := fun _ _ h ↦ by cases h
  dropped := fun h ↦ by cases h
  program := rfl
  finished := fun h ↦ by cases h
  small := Nat.lt_of_lt_of_le Nat.zero_lt_one (Nat.le_max_right _ _)
  forced := by simp [initial]

/-! ## Steps of the producer -/

/-- The storage that a buffer gets has no events in it. -/
theorem items_prepare (hpool : AllEmpty state.pool) (allocator : Allocator) (event : ScanEvent) :
    (state.pipeline.prepare config sender allocator state.pool event).1.buffer.items =
      state.pipeline.buffer.items := by
  unfold BufferedPipeline.prepare
  split
  case isTrue hnone =>
    have htaken : ∀ minimum, (sender.takeBuffer state.pool minimum).1.items = [] := by
      intro minimum
      cases sender with
      | recycling capacity => exact hpool.items_take minimum
      | unbounded => rfl
      | bounded capacity => rfl
    have hreserved : ∀ minimum, (if (sender.takeBuffer state.pool minimum).1.capacity < minimum then
        (sender.takeBuffer state.pool minimum).1.reserveExact allocator minimum
        else (sender.takeBuffer state.pool minimum).1).items = [] := by
      intro minimum
      split
      · exact (Arena.items_reserveExact _ _ _).trans (htaken minimum)
      · exact htaken minimum
    exact (hreserved _).trans (Arena.items_eq_nil hnone).symm
  case isFalse => rfl

theorem allEmpty_prepare (hpool : AllEmpty state.pool) (allocator : Allocator) (event : ScanEvent) :
    AllEmpty (state.pipeline.prepare config sender allocator state.pool event).2 := by
  unfold BufferedPipeline.prepare
  split
  case isTrue =>
    cases sender with
    | recycling capacity => exact hpool.take _
    | unbounded => exact hpool
    | bounded capacity => exact hpool
  case isFalse => exact hpool

/-- The consumer goes on until the producer is dropped. -/
theorem Ordered.not_finished (h : state.Ordered config calls)
    (hproducer : state.producer ≠ .dropped) : state.consumer ≠ .finished :=
  fun hend ↦ hproducer (h.finished hend).2

/-- The producer has no batch of its own. -/
theorem Ordered.parts (h : state.Ordered config calls) {held : List ScanEvent}
    (hnone : state.producer.batches = []) (hheld : state.producer.held = held) :
    (state.received ++ state.channel.map Arena.items).flatten ++ state.pipeline.buffer.items ++
        held = state.emitted ∧
      ∀ batch ∈ state.received ++ state.channel.map Arena.items,
        batch ≠ [] ∧ batch.length ≤ max config.batchSize 1 := by
  have horder := h.order
  have hsized := h.sized
  simp only [batches, hnone, hheld, List.append_nil] at horder hsized
  exact ⟨horder, hsized⟩

/-- A producer that has handed over its buffer holds nothing. -/
theorem handedOver_parts (last : Bool) :
    (if last = true then ProducerPhase.dropped else .calling).batches = [] ∧
      (if last = true then ProducerPhase.dropped else .calling).held = [] := by
  cases last <;> exact ⟨rfl, rfl⟩

/-- A buffer is handed over. -/
theorem Ordered.flushed (h : state.Ordered config calls) (hproducer : state.producer = .calling)
    {last : Bool} (hlast : last = true → state.calls = []) :
    (state.flushed last).Sound config calls := by
  have hpositive : 0 < max config.batchSize 1 :=
    Nat.lt_of_lt_of_le Nat.zero_lt_one (Nat.le_max_right _ _)
  have hheld : state.producer.held = [] := congrArg ProducerPhase.held hproducer
  obtain ⟨horder, hsized⟩ := h.parts (congrArg ProducerPhase.batches hproducer) hheld
  rw [List.append_nil] at horder
  have hfinished : state.consumer ≠ .finished := h.not_finished (by simp [hproducer])
  unfold EventDelivery.flushed
  split
  case isTrue hempty =>
    have hitems : state.pipeline.buffer.items = [] := List.isEmpty_iff.mp hempty
    obtain ⟨hbatches, hkept⟩ := handedOver_parts last
    exact
      { order := by
          simp only [batches, hbatches, hkept, List.append_nil]
          exact horder
        sized := by
          simp only [batches, hbatches, List.append_nil]
          exact hsized
        fits := h.fits
        pooled := h.pooled
        drained := h.drained
        sending := by
          intro batch other hother
          cases last <;> cases hother
        dropped := by
          intro hdropped
          cases last with
          | false => cases hdropped
          | true => exact ⟨hitems, hlast rfl⟩
        program := h.program
        finished := fun hend ↦ absurd hend hfinished
        small := by
          simp only [hitems, List.length_nil]
          exact hpositive
        forced := fun _ _ _ _ ↦ hitems }
  case isFalse hsome =>
    have hitems : state.pipeline.buffer.items ≠ [] := fun hnil ↦ hsome (List.isEmpty_iff.mpr hnil)
    exact
      { order := by
          simp only [batches, ProducerPhase.batches, ProducerPhase.held, List.flatten_append,
            List.flatten_singleton, Arena.items_empty, List.append_nil]
          rw [← List.flatten_append]
          exact horder
        sized := by
          intro batch hbatch
          simp only [batches, ProducerPhase.batches] at hbatch
          rcases List.mem_append.mp hbatch with hold | hnew
          · exact hsized batch hold
          · obtain rfl := List.mem_singleton.mp hnew
            exact ⟨hitems, h.fits⟩
        fits := Nat.zero_le _
        pooled := h.pooled
        drained := h.drained
        sending := by
          intro batch other hother
          simp only [ProducerPhase.sending.injEq] at hother
          exact ⟨rfl, hother.2 ▸ hlast⟩
        dropped := fun h ↦ by cases h
        program := h.program
        finished := fun hend ↦ absurd hend hfinished
        small := hpositive
        forced := fun h ↦ by cases h }

/-- The storage for an event is there. -/
theorem Sound.emit (h : state.Sound config calls) (hproducer : state.producer = .calling)
    {call : PipelineCall} {rest : List PipelineCall} (hcalls : state.calls = call :: rest)
    {event : ScanEvent} {progress : ScanProgress}
    (hemit : call.emit state.pipeline.progress = some (event, progress)) (allocator : Allocator) :
    Sound config calls
      { state with
        pipeline :=
          { (state.pipeline.prepare config sender allocator state.pool event).1 with
            progress := progress }
        calls := rest
        producer := .queueing event
        pool := (state.pipeline.prepare config sender allocator state.pool event).2
        emitted := state.emitted ++ [event] } := by
  have hitems := @items_prepare config sender _ h.pooled allocator event
  have hheld : state.producer.held = [] := congrArg ProducerPhase.held hproducer
  obtain ⟨horder, hsized⟩ := h.toOrdered.parts (congrArg ProducerPhase.batches hproducer) hheld
  rw [List.append_nil] at horder
  exact
    { order := by
        simp only [batches, ProducerPhase.batches, ProducerPhase.held, List.append_nil, hitems]
        rw [horder]
      sized := by
        simp only [batches, ProducerPhase.batches, List.append_nil]
        exact hsized
      fits := hitems ▸ h.fits
      pooled := allEmpty_prepare h.pooled allocator event
      drained := h.drained
      sending := fun _ _ h ↦ by cases h
      dropped := fun h ↦ by cases h
      program := by
        rw [← h.program, hcalls, PipelineCall.emitted, hemit, List.append_assoc]
        rfl
      finished := fun hend ↦ absurd hend (h.not_finished (by simp [hproducer]))
      small := hitems ▸ h.small
      forced := fun h ↦ by cases h }

/-- An event is put into the buffer. -/
theorem Sound.pushed (h : state.Sound config calls) {event : ScanEvent}
    (hproducer : state.producer = .queueing event) (allocator : Allocator) :
    (state.pushed config allocator event).Sound config calls := by
  have hheld : state.producer.held = [event] := congrArg ProducerPhase.held hproducer
  obtain ⟨horder, hsized⟩ := h.toOrdered.parts (congrArg ProducerPhase.batches hproducer) hheld
  have hqueued : Ordered config calls
      { state with pipeline := state.pipeline.push allocator event, producer := .calling } :=
    { order := by
        simp only [batches, ProducerPhase.batches, ProducerPhase.held, List.append_nil,
          BufferedPipeline.push, Arena.items_push]
        rw [← horder, List.append_assoc]
      sized := by
        simp only [batches, ProducerPhase.batches, List.append_nil]
        exact hsized
      fits := by
        simp only [BufferedPipeline.push, Arena.items_push, List.length_append,
          List.length_singleton]
        exact h.small
      pooled := h.pooled
      drained := h.drained
      sending := fun _ _ h ↦ by cases h
      dropped := fun h ↦ by cases h
      program := h.program
      finished := fun hend ↦ absurd hend (h.not_finished (by simp [hproducer])) }
  unfold EventDelivery.pushed
  dsimp only
  split
  case isTrue => exact hqueued.flushed rfl fun h ↦ by cases h
  case isFalse hkept =>
    simp only [BufferedPipeline.flushesAfter, ScanEventPipeline.shouldFlush, Bool.or_eq_true,
      not_or, decide_eq_true_eq] at hkept
    refine { hqueued with small := Nat.lt_of_not_le hkept.2.1, forced := ?_ }
    intro _ other hother hforces
    rw [← horder, List.getLast?_append, List.getLast?_singleton] at hother
    obtain rfl := Option.some.inj hother
    exact absurd hforces hkept.1

/-- A batch enters the channel. -/
theorem Sound.send (h : state.Sound config calls) {batch : Arena ScanEvent} {last : Bool}
    (hproducer : state.producer = .sending batch last) :
    Sound config calls
      { state with
        pipeline := { state.pipeline with bufferedBytes := 0 }
        producer := if last then .dropped else .calling
        channel := state.channel ++ [batch] } := by
  obtain ⟨hitems, hcalls⟩ := h.sending batch last hproducer
  obtain ⟨hbatches, hkept⟩ := handedOver_parts last
  have hsent : state.producer.batches = [batch.items] := by rw [hproducer]; rfl
  have hheld : state.producer.held = [] := by rw [hproducer]; rfl
  have hall : state.received ++ (state.channel ++ [batch]).map Arena.items = state.batches := by
    simp [batches, hsent]
  exact
    { order := by
        have horder := h.order
        simp only [hheld, List.append_nil] at horder
        simp only [batches, hbatches, hkept, List.append_nil]
        rw [hall]
        exact horder
      sized := by
        simp only [batches, hbatches, List.append_nil]
        rw [hall]
        exact h.sized
      fits := h.fits
      pooled := h.pooled
      drained := h.drained
      sending := by
        intro other end_ hother
        cases last <;> cases hother
      dropped := by
        intro hdropped
        cases last with
        | false => cases hdropped
        | true => exact ⟨hitems, hcalls rfl⟩
      program := h.program
      finished := fun hend ↦ absurd hend (h.not_finished (by simp [hproducer]))
      small := h.small
      forced := fun _ _ _ _ ↦ hitems }

/-! ## Steps of the consumer -/

/-- A batch leaves the channel. -/
theorem Sound.receive (h : state.Sound config calls) (hconsumer : state.consumer = .waiting)
    {batch : Arena ScanEvent} {rest : List (Arena ScanEvent)}
    (hchannel : state.channel = batch :: rest) :
    Sound config calls
      { state with
        channel := rest
        consumer := .draining batch
        received := state.received ++ [batch.items] } := by
  have hall : state.received ++ [batch.items] ++ rest.map Arena.items =
      state.received ++ state.channel.map Arena.items := by
    simp [hchannel]
  have hleft : state.consumer.left = [] := by rw [hconsumer]; rfl
  have hdrained := h.drained
  rw [hleft, List.append_nil] at hdrained
  exact
    { h with
      order := by
        simp only [batches, hall]
        exact h.order
      sized := by
        simp only [batches, hall]
        exact h.sized
      drained := by
        simp only [ConsumerPhase.left, List.flatten_append, List.flatten_singleton, hdrained]
      finished := fun h ↦ by cases h }

theorem Sound.consume (h : state.Sound config calls) {batch : Arena ScanEvent} {event : ScanEvent}
    {rest : List ScanEvent} (hconsumer : state.consumer = .draining batch)
    (hitems : batch.items = event :: rest) :
    Sound config calls
      { state with consumer := .draining batch.tail, consumed := state.consumed ++ [event] } := by
  have hdrained := h.drained
  have hleft : state.consumer.left = event :: rest := by
    rw [hconsumer]
    exact hitems
  rw [hleft] at hdrained
  exact
    { h with
      drained := by
        simp only [ConsumerPhase.left, Arena.items_tail, hitems, List.tail_cons,
          List.append_assoc]
        exact hdrained
      finished := fun h ↦ by cases h }

/-- Nothing but the storage of a batch is given back. -/
theorem Sound.recycle (h : state.Sound config calls) {batch : Arena ScanEvent}
    (hconsumer : state.consumer = .draining batch) (hitems : batch.items = []) :
    Sound config calls
      { state with
        pool := Arena.recycle maxPooledBatches maxCapacity state.pool batch
        consumer := .waiting } := by
  have hdrained := h.drained
  have hleft : state.consumer.left = [] := by
    rw [hconsumer]
    exact hitems
  rw [hleft] at hdrained
  exact
    { h with
      pooled := h.pooled.recycle hitems _ _
      drained := hdrained
      finished := fun h ↦ by cases h }

/-- A step keeps everything in order. -/
theorem Sound.step (h : state.Sound config calls) (hstep : Step config sender maxCapacity state next) :
    next.Sound config calls := by
  cases hstep with
  | emit hproducer hcalls hemit hprepared =>
      subst hprepared
      exact h.emit hproducer hcalls hemit _
  | push hproducer => exact h.pushed hproducer _
  | @flush call rest hproducer hcalls hemit =>
      have hprogram := h.program
      rw [hcalls, PipelineCall.emitted, hemit] at hprogram
      have hskipped : Ordered config calls { state with calls := rest } :=
        { h.toOrdered with
          program := hprogram
          sending := by
            intro batch last hsending
            rw [hproducer] at hsending
            cases hsending
          dropped := by
            intro hdropped
            rw [hproducer] at hdropped
            cases hdropped }
      exact hskipped.flushed hproducer fun h ↦ by cases h
  | drop hproducer hcalls => exact h.toOrdered.flushed hproducer fun _ ↦ hcalls
  | send hproducer hroom => exact h.send hproducer
  | receive hconsumer hchannel => exact h.receive hconsumer hchannel
  | consume hconsumer hitems => exact h.consume hconsumer hitems
  | recycle hconsumer hitems => exact h.recycle hconsumer hitems
  | disconnect hconsumer hchannel hproducer =>
      have hleft : state.consumer.left = [] := by rw [hconsumer]; rfl
      have hdrained := h.drained
      rw [hleft] at hdrained
      exact { h with drained := hdrained, finished := fun _ ↦ ⟨hchannel, hproducer⟩ }

theorem Reachable.sound (h : Reachable config sender maxCapacity calls state) :
    state.Sound config calls := by
  induction h with
  | refl => exact sound_initial config calls
  | tail _ hstep ih => exact ih.step hstep

/-! ## The end -/

/-- What is left to do, more for an event the less of its way it has gone. -/
def distance (state : EventDelivery) : ℕ :=
  13 * state.calls.length + 10 * state.pipeline.buffer.items.length +
    (match state.producer with
      | .calling => 1
      | .queueing _ => 12
      | .sending batch _ => 2 * batch.items.length + 6
      | .dropped => 0) +
    (state.channel.map (fun batch ↦ 2 * batch.items.length + 4)).sum +
    (match state.consumer with
      | .waiting => 1
      | .draining batch => 2 * batch.items.length + 4
      | .finished => 0)

theorem distance_flushed (hproducer : state.producer = .calling) (last : Bool) :
    (state.flushed last).distance ≤ state.distance ∧
      (last = true → (state.flushed last).distance < state.distance) := by
  unfold flushed
  split
  case isTrue =>
    cases last with
    | false => simp [distance, hproducer]
    | true => simp [distance, hproducer]
  case isFalse hsome =>
    have hlength : 0 < state.pipeline.buffer.items.length :=
      List.length_pos_iff.mpr fun hnil ↦ hsome (List.isEmpty_iff.mpr hnil)
    simp only [distance, hproducer, Arena.items_empty, List.length_nil]
    omega

/-- Every step brings the end closer. -/
theorem distance_lt (hsound : state.Sound config calls)
    (hstep : Step config sender maxCapacity state next) : next.distance < state.distance := by
  cases hstep with
  | @emit call rest event progress allocator prepared hproducer hcalls hemit hprepared =>
      subst hprepared
      simp only [distance, hproducer, hcalls, items_prepare hsound.pooled, List.length_cons]
      omega
  | @push event allocator hproducer =>
      have hqueued : ({ state with
          pipeline := state.pipeline.push allocator event,
          producer := .calling } : EventDelivery).distance < state.distance := by
        simp only [distance, hproducer, BufferedPipeline.push, Arena.items_push,
          List.length_append, List.length_singleton]
        omega
      unfold pushed
      dsimp only
      split
      · exact (distance_flushed rfl false).1.trans_lt hqueued
      · exact hqueued
  | @flush call rest hproducer hcalls hemit =>
      have hskipped : ({ state with calls := rest } : EventDelivery).distance < state.distance := by
        simp only [distance, hcalls, List.length_cons]
        omega
      have hproducer' : ({ state with calls := rest } : EventDelivery).producer = .calling := hproducer
      exact (distance_flushed hproducer' false).1.trans_lt hskipped
  | drop hproducer hcalls => exact (distance_flushed hproducer true).2 rfl
  | @send batch last hproducer hroom =>
      simp only [distance, hproducer, List.map_append, List.sum_append, List.map_cons,
        List.map_nil, List.sum_cons, List.sum_nil]
      cases last <;> simp only [if_true, Bool.false_eq_true, if_false] <;> omega
  | receive hconsumer hchannel =>
      simp only [distance, hconsumer, hchannel, List.map_cons, List.sum_cons]
      omega
  | consume hconsumer hitems =>
      simp only [distance, hconsumer, Arena.items_tail, hitems, List.tail_cons, List.length_cons]
      omega
  | recycle hconsumer hitems =>
      simp only [distance, hconsumer]
      omega
  | disconnect hconsumer hchannel hproducer =>
      simp only [distance, hconsumer]
      omega

/-- There is always room in an empty channel that is waited for. -/
theorem hasRoom_zero (sender : EventBatchSender) : sender.hasRoom 0 true = true := by
  cases sender <;> simp [EventBatchSender.hasRoom]

/-- The producer or the consumer can go on until both are done. -/
theorem exists_step (config : ScanPipelineConfig) (sender : EventBatchSender) (maxCapacity : ℕ)
    (hleft : state.consumer ≠ .finished) : ∃ next, Step config sender maxCapacity state next := by
  cases hconsumer : state.consumer with
  | finished => exact absurd hconsumer hleft
  | draining batch =>
      cases hitems : batch.items with
      | nil => exact ⟨_, .recycle hconsumer hitems⟩
      | cons event rest => exact ⟨_, .consume hconsumer hitems⟩
  | waiting =>
      cases hchannel : state.channel with
      | cons batch rest => exact ⟨_, .receive hconsumer hchannel⟩
      | nil =>
          cases hproducer : state.producer with
          | queueing event => exact ⟨_, @Step.push _ _ _ _ _ .exact hproducer⟩
          | dropped => exact ⟨_, .disconnect hconsumer hchannel hproducer⟩
          | sending batch last =>
              refine ⟨_, .send hproducer ?_⟩
              have hwaits : state.waits = true := by simp only [waits, hconsumer]
              rw [hchannel, hwaits]
              exact hasRoom_zero sender
          | calling =>
              cases hcalls : state.calls with
              | nil => exact ⟨_, .drop hproducer hcalls⟩
              | cons call rest =>
                  cases hemit : call.emit state.pipeline.progress with
                  | none => exact ⟨_, .flush hproducer hcalls hemit⟩
                  | some emitted =>
                      exact ⟨_, @Step.emit _ _ _ _ _ _ _ _ .exact _ hproducer hcalls hemit rfl⟩

theorem length_le_distance {run : List EventDelivery} (hsound : state.Sound config calls)
    (hrun : List.IsChain (Step config sender maxCapacity) (state :: run)) :
    run.length ≤ state.distance := by
  induction run generalizing state with
  | nil => exact Nat.zero_le _
  | cons next run ih =>
      obtain ⟨hstep, hrest⟩ := List.isChain_cons_cons.mp hrun
      exact Nat.succ_le_of_lt ((ih (hsound.step hstep) hrest).trans_lt (distance_lt hsound hstep))

/-- Every delivery can come to its end. -/
theorem exists_finished (sender : EventBatchSender) (maxCapacity : ℕ)
    (hsound : state.Sound config calls) :
    ∃ final, Relation.ReflTransGen (Step config sender maxCapacity) state final ∧
      final.consumer = .finished := by
  induction hdistance : state.distance using Nat.strong_induction_on generalizing state with
  | _ distance ih =>
      by_cases hleft : state.consumer = .finished
      · exact ⟨state, .refl, hleft⟩
      · obtain ⟨next, hstep⟩ := exists_step config sender maxCapacity hleft
        obtain ⟨final, hrun, hend⟩ :=
          ih next.distance (hdistance ▸ distance_lt hsound hstep) (hsound.step hstep) rfl
        exact ⟨final, .head hstep hrun, hend⟩

end EventDelivery

open EventDelivery in
/-- Whatever the configuration, the channel, the calls, the room that allocations
give and the order in which the two threads go on: no batch is empty or too long,
nothing is kept back after an event that forces a flush, and the pool holds no
events. The delivery goes on until it is done, after finitely many steps. What is
received until then is a beginning of what was emitted, and all of it in the end. -/
theorem delivery_exact (config : ScanPipelineConfig) (sender : EventBatchSender) (maxCapacity : ℕ)
    (calls : List PipelineCall) (state : EventDelivery)
    (hreach : EventDelivery.Reachable config sender maxCapacity calls state) :
    (∀ batch ∈ state.received, batch ≠ [] ∧ batch.length ≤ max config.batchSize 1) ∧
    (state.producer = .calling → ∀ event ∈ state.emitted.getLast?, event.forcesFlush = true →
      state.pipeline.buffer.items = []) ∧
    (∀ arena ∈ state.pool, arena.items = []) ∧
    state.received.flatten <+: state.emitted ∧
    state.emitted <+: PipelineCall.emitted default calls ∧
    (state.consumer = .finished →
      state.received.flatten = PipelineCall.emitted default calls ∧
        state.consumed = PipelineCall.emitted default calls) ∧
    (state.consumer ≠ .finished → ∃ next, Step config sender maxCapacity state next) ∧
    ∃ bound, ∀ run, List.IsChain (Step config sender maxCapacity) (state :: run) →
      run.length ≤ bound := by
  have hsound := hreach.sound
  refine ⟨fun batch hbatch ↦ hsound.sized batch ?_, hsound.forced, hsound.pooled, ?_, ?_, fun hend ↦ ?_,
    exists_step config sender maxCapacity, ⟨state.distance, fun run hrun ↦ length_le_distance hsound hrun⟩⟩
  · exact List.mem_append_left _ (List.mem_append_left _ hbatch)
  · rw [← hsound.order, batches, List.flatten_append, List.flatten_append]
    simp only [List.append_assoc]
    exact List.prefix_append _ _
  · rw [← hsound.program]
    exact List.prefix_append _ _
  · obtain ⟨hchannel, hproducer⟩ := hsound.finished hend
    obtain ⟨hitems, hcalls⟩ := hsound.dropped hproducer
    have horder := hsound.order
    have hprogram := hsound.program
    have hdrained := hsound.drained
    simp only [batches, hproducer, hchannel, hitems, ProducerPhase.batches, ProducerPhase.held,
      List.map_nil, List.append_nil] at horder
    simp only [hcalls, PipelineCall.emitted, List.append_nil] at hprogram
    simp only [hend, ConsumerPhase.left, List.append_nil] at hdrained
    exact ⟨horder.trans hprogram, hdrained.trans (horder.trans hprogram)⟩

/-- Two files and the end of a scan, in batches of two through a channel without
room. -/
def sampleCalls : List PipelineCall := [.file default, .file default, .completed]

theorem delivery_exact_sample : ∃ state,
    EventDelivery.Reachable { batchSize := 2 } (.recycling 0) 512 sampleCalls state ∧
      state.received.flatten = [.fileFound default, .fileFound default, .completed] := by
  obtain ⟨state, hreach, hend⟩ :=
    EventDelivery.exists_finished (.recycling 0) 512
      (EventDelivery.sound_initial { batchSize := 2 } sampleCalls)
  obtain ⟨-, -, -, -, -, hall, -⟩ :=
    delivery_exact { batchSize := 2 } (.recycling 0) 512 sampleCalls state hreach
  exact ⟨state, hreach, (hall hend).1⟩

end WinBlaze
