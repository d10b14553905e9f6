import Embarcadero.Lib.Decoder
import Embarcadero.Lib.LittleEndian
import Embarcadero.Lib.Runs

namespace Embarcadero

open Function (update)

namespace Wire

def maxMessagePayloadSize : Nat := 1024 * 1024

def maxBatchMessages : Nat := 10000

def maxBatchTotalOrder : Nat := 100000000

def align64 (size : Nat) : Nat := (size + 63) / 64 * 64

def headerVersionV1 : Nat := 1

def headerVersionV2 : Nat := 2

def headerSize : Nat := 64

def isValidHeaderVersion (version : Nat) : Bool :=
  version = headerVersionV1 || version = headerVersionV2

def maxV1PaddedSize : Nat := align64 (headerSize + maxMessagePayloadSize)

def computeStrideV2 (payloadSize : Nat) : Nat := align64 (headerSize + payloadSize)

def validV1PaddedSize (paddedSize : Nat) : Bool :=
  headerSize ≤ paddedSize && paddedSize ≤ maxV1PaddedSize && paddedSize % 64 = 0

def validV2Payload (payloadSize : Nat) : Bool :=
  0 < payloadSize && payloadSize ≤ maxMessagePayloadSize

structure BatchMetadata where
  batchTotalOrder : Nat
  numMessages : Nat
  headerVersion : Nat
  flags : Nat
  deriving DecidableEq

def batchMetadataSize : Nat := 16

def readField (bytes : List UInt8) (offset w : Nat) : Nat :=
  LittleEndian.decode ((bytes.drop offset).take w)

def writeField (bytes : List UInt8) (offset w v : Nat) : List UInt8 :=
  bytes.take offset ++ LittleEndian.encode w v ++ bytes.drop (offset + w)

def readBatchMetadata (bytes : List UInt8) : BatchMetadata where
  batchTotalOrder := readField bytes 0 8
  numMessages := readField bytes 8 4
  headerVersion := readField bytes 12 2
  flags := readField bytes 14 2

def BatchMetadata.encode (m : BatchMetadata) : List UInt8 :=
  LittleEndian.encode 8 m.batchTotalOrder ++ LittleEndian.encode 4 m.numMessages ++
    LittleEndian.encode 2 m.headerVersion ++ LittleEndian.encode 2 m.flags

def BatchMetadata.accepted (m : BatchMetadata) : Bool :=
  isValidHeaderVersion m.headerVersion && 0 < m.numMessages && m.numMessages ≤ maxBatchMessages &&
    m.batchTotalOrder < maxBatchTotalOrder

def BatchMetadata.exportGap (m : BatchMetadata) : Bool := m.flags % 2 = 1

/-- The length of the frame whose header is at the front, from `BlogMessageHeader::size` or
`MessageHeader::paddedSize`; `none` if the field is out of range. -/
def frameStride (version : Nat) (bytes : List UInt8) : Option Nat :=
  if version = headerVersionV2 then
    let payloadSize := readField bytes 0 4
    if validV2Payload payloadSize then some (computeStrideV2 payloadSize) else none
  else
    let paddedSize := readField bytes 0 8
    if validV1PaddedSize paddedSize then some paddedSize else none

def totalOrderOffset : Nat := 32

end Wire

open Wire

structure OwnedMessage where
  headerVersion : Nat
  bytes : List UInt8
  deriving DecidableEq

structure ParseCursor where
  pendingMetadata : Option BatchMetadata := none
  currentBatchMessagesProcessed : Nat := 0
  nextMessageOrderInBatch : Nat := 0
  deriving DecidableEq

inductive Parsed
  | gap (start : Nat)
  | message (order : Nat) (msg : OwnedMessage)
  | error
  deriving DecidableEq

def ParseCursor.takeFrame (c : ParseCursor) (m : BatchMetadata) (frame : List UInt8) :
    ParseCursor × Parsed :=
  let stamped := readField frame totalOrderOffset 8
  let totalOrder := if stamped = 0 then c.nextMessageOrderInBatch else stamped
  let bytes := if stamped = 0 then writeField frame totalOrderOffset 8 totalOrder else frame
  let processed := c.currentBatchMessagesProcessed + 1
  ({ pendingMetadata := if m.numMessages ≤ processed then none else some m
     currentBatchMessagesProcessed := processed
     nextMessageOrderInBatch := totalOrder + 1 },
    .message totalOrder ⟨m.headerVersion, bytes⟩)

def parseNext (c : ParseCursor) (bytes : List UInt8) : Option (ParseCursor × List Parsed × Nat) :=
  match c.pendingMetadata with
  | none =>
    if bytes.length < batchMetadataSize then none
    else
      let m := readBatchMetadata bytes
      if m.accepted then
        some (⟨some m, 0, m.batchTotalOrder⟩,
          if m.exportGap then [.gap m.batchTotalOrder] else [], batchMetadataSize)
      else some (c, [.error], 8)
  | some m =>
    if bytes.length < headerSize then none
    else
      match frameStride m.headerVersion bytes with
      | none => some (c, [.error], 8)
      | some stride =>
        if bytes.length < stride then none
        else
          let r := c.takeFrame m (bytes.take stride)
          some (r.1, [r.2], stride)

def parseContiguous (c : ParseCursor) (bytes : List UInt8) :
    ParseCursor × List Parsed × List UInt8 := Decoder.decode parseNext c bytes

structure StreamParseState where
  cursor : ParseCursor := {}
  carry : List UInt8 := []
  deriving DecidableEq

def maxStreamBufferBytes : Nat := 2 * 2 ^ 20

def carryBytesNeeded (c : ParseCursor) (carry : List UInt8) : Nat :=
  match c.pendingMetadata with
  | none => batchMetadataSize - carry.length
  | some m =>
    if carry.length < headerSize then headerSize - carry.length
    else
      match frameStride m.headerVersion carry with
      | none => 0
      | some stride => stride - carry.length

def appendCarry (carry bytes : List UInt8) : Option (List UInt8) :=
  if maxStreamBufferBytes - carry.length < bytes.length then none else some (carry ++ bytes)

def completeCarry : Nat → ParseCursor → List UInt8 → List UInt8 → List Parsed →
    Option (ParseCursor × List UInt8 × List UInt8 × List Parsed)
  | 0, c, carry, input, items => some (c, carry, input, items)
  | fuel + 1, c, carry, input, items =>
    if carry = [] ∨ input = [] then some (c, carry, input, items)
    else
      let (c', found, rest) := parseContiguous c carry
      if rest = [] then some (c', [], input, items ++ found)
      else if rest.length < carry.length then completeCarry fuel c' rest input (items ++ found)
      else
        let needed := carryBytesNeeded c' carry
        let take := min (if needed = 0 then min 8 input.length else needed) input.length
        match appendCarry carry (input.take take) with
        | none => none
        | some carry => completeCarry fuel c' carry (input.drop take) (items ++ found)

def StreamParseState.parse (st : StreamParseState) (data : List UInt8) :
    Option (StreamParseState × List Parsed) :=
  if st.carry ≠ [] then do
    let (c, carry, input, items) ← completeCarry (2 * data.length + st.carry.length + 1) st.cursor st.carry data []
    if carry ≠ [] ∧ input = [] then
      let (c', found, rest) := parseContiguous c carry
      pure (⟨c', rest⟩, items ++ found)
    else if carry = [] ∧ input ≠ [] then
      let (c', found, rest) := parseContiguous c input
      let carry ← appendCarry [] rest
      pure (⟨c', carry⟩, items ++ found)
    else pure (⟨c, carry⟩, items)
  else
    let (c', found, rest) := parseContiguous st.cursor data
    if maxStreamBufferBytes < rest.length then some ({}, [])
    else do
      let carry ← appendCarry [] rest
      pure (⟨c', carry⟩, found)

structure ReorderState where
  next : Nat := 0
  base : Nat := 0
  pending : List (Option OwnedMessage) := []
  received : Nat := 0
  duplicates : Nat := 0
  gapsReported : Nat := 0
  retentionExhausted : Bool := false
  deriving DecidableEq

namespace ReorderState

def dropStale (r : ReorderState) : ReorderState :=
  if r.pending = [] then { r with base := r.next }
  else if r.base < r.next then
    let staleCount := min (r.next - r.base) r.pending.length
    let rest := r.pending.drop staleCount
    { r with pending := rest, base := if rest = [] then r.next else r.base + staleCount }
  else r

def reanchor (r : ReorderState) (gapStart : Nat) : ReorderState :=
  if gapStart ≤ r.next then r
  else { r with gapsReported := r.gapsReported + 1, next := gapStart }.dropStale

def stage (maxRetained : Nat) (r : ReorderState) (order : Nat) (msg : OwnedMessage) : ReorderState :=
  if r.retentionExhausted then r
  else if order < r.next then { r with duplicates := r.duplicates + 1 }
  else
    let r := r.dropStale
    if order < r.base then r
    else
      let index := order - r.base
      if maxRetained ≤ index then { r with retentionExhausted := true }
      else
        let pending := r.pending ++ List.replicate (index + 1 - r.pending.length) none
        match pending.getD index none with
        | some _ => { r with pending, duplicates := r.duplicates + 1 }
        | none => { r with pending := pending.set index (some msg) }

def stageOrderedMessages (maxRetained : Nat) (r : ReorderState) (items : List Parsed) :
    ReorderState :=
  let messages := items.filterMap fun | .message order msg => some (order, msg) | _ => none
  let gaps := items.filterMap fun | .gap start => some start | _ => none
  if r.retentionExhausted then r
  else
    let r := gaps.foldl reanchor { r with received := r.received + messages.length }
    messages.foldl (fun r m => r.stage maxRetained m.1 m.2) r

def tryPop (r : ReorderState) : ReorderState × Option OwnedMessage :=
  let r := r.dropStale
  match r.pending with
  | some msg :: rest =>
    if r.base = r.next then
      ({ r with pending := rest, base := r.base + 1, next := r.next + 1 }, some msg)
    else (r, none)
  | _ => (r, none)

def popLoop : Nat → ReorderState → List OwnedMessage → ReorderState × List OwnedMessage
  | 0, r, out => (r, out)
  | fuel + 1, r, out =>
    match r.pending with
    | some msg :: rest =>
      if r.base = r.next then
        popLoop fuel { r with pending := rest, base := r.base + 1, next := r.next + 1 } (out ++ [msg])
      else (r, out)
    | _ => (r, out)

def tryPopMany (r : ReorderState) (maxMessages : Nat) : ReorderState × List OwnedMessage :=
  if maxMessages = 0 then (r, [])
  else
    let (r, out) := popLoop maxMessages r.dropStale []
    (if r.pending = [] then { r with base := r.next } else r, out)

end ReorderState

structure Subscriber where
  streams : Nat → StreamParseState := fun _ => {}
  reorder : ReorderState := {}
  received : Nat → List UInt8 := fun _ => []
  delivered : List OwnedMessage := []

inductive SubscriberEvent
  | recv (c : Nat) (data : List UInt8)
  | consume
  | consumeBatch (maxMessages : Nat)

namespace Subscriber

def receive (maxRetained : Nat) (s : Subscriber) (c : Nat) (data : List UInt8) : Subscriber :=
  let s := { s with received := update s.received c (s.received c ++ data) }
  if s.reorder.retentionExhausted then s
  else
    match (s.streams c).parse data with
    | none => { s with reorder := { s.reorder with retentionExhausted := true } }
    | some (st, items) =>
      { s with
        streams := update s.streams c st
        reorder := s.reorder.stageOrderedMessages maxRetained items }

def step (maxRetained : Nat) (s : Subscriber) : SubscriberEvent → Option Subscriber
  | .recv c data => if data = [] then none else some (s.receive maxRetained c data)
  | .consume =>
    if s.reorder.retentionExhausted then none
    else
      let r := s.reorder.tryPop
      some { s with reorder := r.1, delivered := s.delivered ++ r.2.toList }
  | .consumeBatch maxMessages =>
    if s.reorder.retentionExhausted then none
    else
      let r := s.reorder.tryPopMany (min maxMessages maxRetained)
      some { s with reorder := r.1, delivered := s.delivered ++ r.2 }

end Subscriber

end Embarcadero
