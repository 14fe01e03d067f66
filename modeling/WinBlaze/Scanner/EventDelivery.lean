import WinBlaze.Lib.Arenas
import WinBlaze.Scanner.Pipeline

/-!
# Delivery of events

A producer calls a pipeline, which collects events in a buffer and hands the
buffer to a channel; a consumer takes the batches out, consumes their events one
by one and gives the storage to a pool, from which the pipeline gets its next
buffer. The two go on independently, and the pool and the channel are all they
share. An allocation may give more room than it was asked for.
-/

namespace WinBlaze

/-- A channel of batches, with its bound where it has one. A recycling sender
gets its buffers from the pool of the consumer. -/
inductive EventBatchSender
  | unbounded
  | bounded (capacity : ℕ)
  | recycling (capacity : ℕ)

namespace EventBatchSender

def takeBuffer (pool : List (Arena ScanEvent)) (minimum : ℕ) :
    EventBatchSender → Arena ScanEvent × List (Arena ScanEvent)
  | .recycling _ => Arena.take pool minimum
  | _ => (.empty, pool)

/-- The batch in the channel leaves no room for another one. Without any room a
batch is handed over when the consumer waits for it. -/
def hasRoom (queued : ℕ) (waiting : Bool) : EventBatchSender → Bool
  | .unbounded => true
  | .bounded capacity => queued < capacity || (queued = 0 && waiting)
  | .recycling capacity => queued < capacity || (queued = 0 && waiting)

end EventBatchSender

def maxPooledBatches : ℕ := 4

/-- A pipeline with the storage of its buffer and the progress it reports. -/
structure BufferedPipeline where
  buffer : Arena ScanEvent
  bufferedBytes : UInt64
  progress : ScanProgress

namespace BufferedPipeline

def new : BufferedPipeline where
  buffer := .empty
  bufferedBytes := 0
  progress := default

/-- The pipeline without its storage. -/
def toPipeline (pipeline : BufferedPipeline) : ScanEventPipeline where
  buffer := pipeline.buffer.items
  bufferedBytes := pipeline.bufferedBytes

/-- The first part of `enqueue`: storage for the event, and the pool after it. -/
def prepare (config : ScanPipelineConfig) (sender : EventBatchSender) (allocator : Allocator)
    (pool : List (Arena ScanEvent)) (pipeline : BufferedPipeline) (event : ScanEvent) :
    BufferedPipeline × List (Arena ScanEvent) :=
  if pipeline.buffer.capacity = 0 then
    let minimum := if event.forcesFlush then 1 else max config.batchSize 1
    let taken := sender.takeBuffer pool minimum
    ({ pipeline with
        buffer :=
          if taken.1.capacity < minimum then taken.1.reserveExact allocator minimum else taken.1 },
      taken.2)
  else (pipeline, pool)

/-- The second part of `enqueue`, before it flushes. -/
def push (allocator : Allocator) (pipeline : BufferedPipeline) (event : ScanEvent) :
    BufferedPipeline :=
  { pipeline with
    buffer := pipeline.buffer.push allocator event
    bufferedBytes := Saturating.satAdd pipeline.bufferedBytes event.estimatedBytes }

/-- The buffer is handed over after an event. -/
def flushesAfter (config : ScanPipelineConfig) (pipeline : BufferedPipeline) (event : ScanEvent) :
    Bool :=
  event.forcesFlush || pipeline.toPipeline.shouldFlush config

end BufferedPipeline

/-- The functions of a pipeline that a producer calls. -/
inductive PipelineCall
  | sessionStarted (volume : VolumeRecord)
  | volumeDiscovered (volume : VolumeRecord)
  | directory (record : DirectoryRecord)
  | file (record : FileRecord)
  | event (event : ScanEvent)
  | issue (record : ScanIssueRecord)
  | progress (completedItems totalItems totalBytes : UInt64)
  | summary (total : ScanSummary)
  | completed
  | cancelled
  | flush

def ScanProgress.addFile (progress : ScanProgress) (file : FileRecord) : ScanProgress :=
  { progress with completedBytes := Saturating.satAdd progress.completedBytes file.sizeBytes }

namespace PipelineCall

/-- The event that a call emits, and the progress after it. -/
def emit (before : ScanProgress) : PipelineCall → Option (ScanEvent × ScanProgress)
  | .sessionStarted volume => some (.sessionStarted volume, before)
  | .volumeDiscovered volume => some (.volumeDiscovered volume, before)
  | .directory record => some (.directoryFound record, before)
  | .file record => some (.fileFound record, before.addFile record)
  | .event (.fileFound record) => some (.fileFound record, before.addFile record)
  | .event other => some (other, before)
  | .issue record => some (.issue record, before)
  | .progress completedItems totalItems totalBytes =>
      let reported : ScanProgress :=
        { before with
          completedItems := completedItems, totalItems := totalItems, totalBytes := totalBytes }
      some (.progress reported, reported)
  | .summary total => some (.summary total, before)
  | .completed => some (.completed, before)
  | .cancelled => some (.cancelled, before)
  | .flush => none

/-- The events that a sequence of calls emits. -/
def emitted (before : ScanProgress) : List PipelineCall → List ScanEvent
  | [] => []
  | call :: calls =>
      match call.emit before with
      | some (next, after) => next :: emitted after calls
      | none => emitted before calls

end PipelineCall

/-- Where the producer is: in no call, in `enqueue` with storage for the event,
in `send` with a batch (`last` when the pipeline is being dropped), or done. -/
inductive ProducerPhase
  | calling
  | queueing (event : ScanEvent)
  | sending (batch : Arena ScanEvent) (last : Bool)
  | dropped

/-- Where the consumer is in `for_each_event`: before `recv`, in a batch with
the events that are left, or done. -/
inductive ConsumerPhase
  | waiting
  | draining (batch : Arena ScanEvent)
  | finished

/-- A pipeline with the calls to come, and the way of its events. -/
structure EventDelivery where
  pipeline : BufferedPipeline
  calls : List PipelineCall
  producer : ProducerPhase
  channel : List (Arena ScanEvent)
  pool : List (Arena ScanEvent)
  consumer : ConsumerPhase
  emitted : List ScanEvent
  received : List (List ScanEvent)
  consumed : List ScanEvent

namespace EventDelivery

def initial (calls : List PipelineCall) : EventDelivery where
  pipeline := .new
  calls := calls
  producer := .calling
  channel := []
  pool := []
  consumer := .waiting
  emitted := []
  received := []
  consumed := []

def waits (state : EventDelivery) : Bool :=
  match state.consumer with
  | .waiting => true
  | _ => false

/-- `flush`, before the batch is sent. -/
def flushed (state : EventDelivery) (last : Bool) : EventDelivery :=
  if state.pipeline.buffer.items.isEmpty then
    { state with producer := if last then .dropped else .calling }
  else
    { state with
      pipeline := { state.pipeline with buffer := .empty }
      producer := .sending state.pipeline.buffer last }

/-- An event is put into the buffer, which is then kept or handed over. -/
def pushed (config : ScanPipelineConfig) (allocator : Allocator) (state : EventDelivery)
    (event : ScanEvent) : EventDelivery :=
  let queued := { state with
    pipeline := state.pipeline.push allocator event, producer := .calling }
  if queued.pipeline.flushesAfter config event then queued.flushed false else queued

/-- The steps of the producer and the consumer. Vectors with room for more than
`maxCapacity` events are not recycled. -/
inductive Step (config : ScanPipelineConfig) (sender : EventBatchSender) (maxCapacity : ℕ) :
    EventDelivery → EventDelivery → Prop
  | emit {state : EventDelivery} {call : PipelineCall} {calls : List PipelineCall}
      {event : ScanEvent} {progress : ScanProgress} {allocator : Allocator}
      {prepared : BufferedPipeline × List (Arena ScanEvent)} (hproducer : state.producer = .calling)
      (hcalls : state.calls = call :: calls)
      (hemit : call.emit state.pipeline.progress = some (event, progress))
      (hprepared : prepared =
        state.pipeline.prepare config sender allocator state.pool event) :
      Step config sender maxCapacity state
        { state with
          pipeline := { prepared.1 with progress := progress }
          calls := calls
          producer := .queueing event
          pool := prepared.2
          emitted := state.emitted ++ [event] }
  | push {state : EventDelivery} {event : ScanEvent} {allocator : Allocator}
      (hproducer : state.producer = .queueing event) :
      Step config sender maxCapacity state (state.pushed config allocator event)
  | flush {state : EventDelivery} {call : PipelineCall} {calls : List PipelineCall}
      (hproducer : state.producer = .calling) (hcalls : state.calls = call :: calls)
      (hemit : call.emit state.pipeline.progress = none) :
      Step config sender maxCapacity state ({ state with calls := calls }.flushed false)
  | drop {state : EventDelivery} (hproducer : state.producer = .calling)
      (hcalls : state.calls = []) : Step config sender maxCapacity state (state.flushed true)
  | send {state : EventDelivery} {batch : Arena ScanEvent} {last : Bool}
      (hproducer : state.producer = .sending batch last)
      (hroom : sender.hasRoom state.channel.length state.waits = true) :
      Step config sender maxCapacity state
        { state with
          pipeline := { state.pipeline with bufferedBytes := 0 }
          producer := if last then .dropped else .calling
          channel := state.channel ++ [batch] }
  | receive {state : EventDelivery} {batch : Arena ScanEvent} {rest : List (Arena ScanEvent)}
      (hconsumer : state.consumer = .waiting) (hchannel : state.channel = batch :: rest) :
      Step config sender maxCapacity state
        { state with
          channel := rest
          consumer := .draining batch
          received := state.received ++ [batch.items] }
  | consume {state : EventDelivery} {batch : Arena ScanEvent} {event : ScanEvent}
      {rest : List ScanEvent} (hconsumer : state.consumer = .draining batch)
      (hitems : batch.items = event :: rest) :
      Step config sender maxCapacity state
        { state with
          consumer := .draining batch.tail
          consumed := state.consumed ++ [event] }
  | recycle {state : EventDelivery} {batch : Arena ScanEvent}
      (hconsumer : state.consumer = .draining batch) (hitems : batch.items = []) :
      Step config sender maxCapacity state
        { state with
          pool := Arena.recycle maxPooledBatches maxCapacity state.pool batch
          consumer := .waiting }
  | disconnect {state : EventDelivery} (hconsumer : state.consumer = .waiting)
      (hchannel : state.channel = []) (hproducer : state.producer = .dropped) :
      Step config sender maxCapacity state { state with consumer := .finished }

/-- The states of a delivery of some calls. -/
def Reachable (config : ScanPipelineConfig) (sender : EventBatchSender) (maxCapacity : ℕ)
    (calls : List PipelineCall) : EventDelivery → Prop :=
  Relation.ReflTransGen (Step config sender maxCapacity) (initial calls)

end EventDelivery

end WinBlaze
