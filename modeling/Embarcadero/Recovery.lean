import Embarcadero.Commit

namespace Embarcadero

open Function (update)

structure Recovered where
  nextGoiIndex : Nat := 0
  globalSeq : Nat := 0
  nextExpected : SessionKey → Nat := fun _ => 0
  msgCounts : Nat → Nat := fun _ => 0

def Recovered.scan (goi : Nat → GOIEntry) (r : Recovered) (i : Nat) : Recovered :=
  let e := goi i
  if e.globalSeq ≠ i then r
  else
    let r := { r with nextGoiIndex := i + 1, globalSeq := max r.globalSeq (e.totalOrder + e.messageCount) }
    if e.sessionEpoch = 0 then r
    else { r with
      nextExpected := update r.nextExpected e.key (max (r.nextExpected e.key) (e.clientSeq + 1))
      msgCounts := update r.msgCounts e.clientId (r.msgCounts e.clientId + e.messageCount) }

def CxlMemory.committedLimit (c : CxlMemory) : Nat := (c.committedSeq.map (· + 1)).getD 0

/-- `RecoverSequencer5State`: scan the committed GOI prefix, then raise every session to the
`expected_seq` of its active entry. -/
def recoverSequencer5State (c : CxlMemory) : Recovered :=
  let r := (List.range c.committedLimit).foldl (Recovered.scan c.goi) {}
  { r with nextExpected := fun k =>
      if (c.sessions.get k).active then max (r.nextExpected k) (c.sessions.expected k)
      else r.nextExpected k }

def CxlMemory.recoveredClient (c : CxlMemory) (client : Nat) : Bool :=
  ((List.range c.committedLimit).any fun i =>
    (c.goi i).globalSeq = i && (c.goi i).sessionEpoch ≠ 0 && (c.goi i).clientId = client) ||
  c.sessions.keys.any fun k => (c.sessions.get k).active && k.clientId = client

def rebuildExportDescriptor (P : Platform) (goi : Nat → GOIEntry)
    (s : CxlMemory × Commit.ExportState) (i : Nat) : CxlMemory × Commit.ExportState :=
  let e := goi i
  if e.globalSeq ≠ i ∨ e.messageCount = 0 ∨ e.payloadSize = 0 ∨ !Commit.exports P e.brokerId then s
  else
    let m : HoldBatchMetadata :=
      { logIdx := e.blogOffset, totalSize := e.payloadSize, batchId := e.batchId
        sessionEpoch := e.sessionEpoch, pbrAbsoluteIndex := e.pbrIndex, clientId := e.clientId
        epochCreated := e.epochSequenced, brokerId := e.brokerId, numMsg := e.messageCount
        startLogicalOffset := e.cumulativeMessageCount - e.messageCount }
    (s.1.setSlot ⟨e.brokerId, s.2.slot P e.brokerId⟩
      (Commit.descriptor m (s.2.sequence e.brokerId) e.totalOrder), s.2.advance P e.brokerId)

def rebuildExportDescriptors (P : Platform) (c : CxlMemory) (recoveredNextGoi : Nat) :
    CxlMemory × Commit.ExportState :=
  (List.range recoveredNextGoi).foldl (rebuildExportDescriptor P c.goi) (c, ⟨fun _ => 0, fun _ => 0⟩)

/-- The control block as a starting sequencer leaves it: a new epoch, and `committed_seq` just
below the next GOI index. -/
def CxlMemory.takeOver (c : CxlMemory) (nextGoiIndex : Nat) : CxlMemory :=
  { c with
    committedSeq := if nextGoiIndex = 0 then none else some (nextGoiIndex - 1)
    controlEpoch := c.controlEpoch + 1 }

def sequencer5 (P : Platform) (c : CxlMemory) : Topic :=
  let r := recoverSequencer5State c
  let c := c.takeOver r.nextGoiIndex
  let rebuilt := rebuildExportDescriptors P c r.nextGoiIndex
  let exported := rebuilt.2
  { cxl := rebuilt.1
    perClientOrdered := r.msgCounts
    perClientOrderedEpoch := fun client => if c.recoveredClient client then c.controlEpoch else 0
    globalBatchSeq := r.nextGoiIndex
    globalSeq := r.globalSeq
    exportCursor := exported.cursor
    exportSequence := exported.sequence
    nextExpectedStart := r.nextGoiIndex
    recoveredNextExpected := r.nextExpected
    cachedEpoch := c.controlEpoch }

def Topic.fresh (P : Platform) : Topic := sequencer5 P (.fresh P)

def insertRange (r : CompletedRange) : List CompletedRange → List CompletedRange
  | [] => [r]
  | q :: rest => if r.start ≤ q.start then r :: q :: rest else q :: insertRange r rest

def advanceRanges : Nat → List CompletedRange → Nat × List CompletedRange
  | next, [] => (next, [])
  | next, r :: rest =>
    if r.stop ≤ next then advanceRanges next rest
    else if r.start ≤ next then advanceRanges r.stop rest
    else (next, r :: rest)

def Topic.committedSeqUpdater (t : Topic) (n : Nat) : Topic :=
  let pending := (t.completedRanges.take n).foldl (fun q r => insertRange r q) t.pendingRanges
  let (next, rest) := advanceRanges t.nextExpectedStart pending
  { t with
    completedRanges := t.completedRanges.drop n
    pendingRanges := rest
    nextExpectedStart := next
    cxl := if t.nextExpectedStart < next then { t.cxl with committedSeq := some (next - 1) }
      else t.cxl }

end Embarcadero
