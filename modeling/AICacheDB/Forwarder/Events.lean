import AICacheDB.Forwarder.Wal
import AICacheDB.Library.Segments

open CLib

namespace AICacheDB.Forwarder

open Resp

section Model

def maxData : Nat := 16384

def flowMax : Nat := 1024

structure FlowKey where
  saddr : UInt32
  daddr : UInt32
  sport : UInt16
  dport : UInt16
  deriving DecidableEq

structure Event where
  key : FlowKey
  seq : UInt32
  fullLen : UInt32
  payload : Bytes

structure FlowState where
  used : Bool
  key : FlowKey
  buf : Bytes
  haveSeq : Bool
  nextSeq : UInt32
  lastSeen : Int

def FlowState.zero : FlowState := ⟨false, ⟨0, 0, 0, 0⟩, [], false, 0, 0⟩

def tcpSeqBefore (a b : UInt32) : Bool := (a - b).toInt32 < 0

def resetFlowState (now : Int) (st : FlowState) : FlowState := { st with buf := [], haveSeq := false, nextSeq := 0, lastSeen := now }

/-- The flows, and the slot of the flow with the key unless there is none. -/
def getFlowState (now : Int) (malloc : Bool) (flows : List FlowState) (key : FlowKey) : List FlowState × Option Nat :=
  match flows.findIdx? fun st => st.used && st.key = key with
  | some i => (flows.modify i fun st => { st with lastSeen := now }, some i)
  | none =>
    match flows.findIdx? fun st => !st.used with
    | none => (flows, none)
    | some i =>
      if malloc = false then (flows, none)
      else (flows.modify i fun st => { st with used := true, key := key, buf := [], lastSeen := now }, some i)

def normalizePayloadBySeq (now : Int) (st : FlowState) (e : Event) : FlowState × Option Bytes :=
  if st.haveSeq = false then ({ st with haveSeq := true, nextSeq := e.seq + e.fullLen }, some e.payload)
  else if e.seq = st.nextSeq then ({ st with nextSeq := st.nextSeq + e.fullLen }, some e.payload)
  else if tcpSeqBefore e.seq st.nextSeq = true then
    let overlap := st.nextSeq - e.seq
    if e.fullLen ≤ overlap then (st, none)
    else
      let payload := e.payload.drop overlap.toNat
      ({ st with nextSeq := st.nextSeq + UInt32.ofNat payload.length }, some payload)
  else (resetFlowState now st, none)

/-- The loop of `handle_event`: what is left of the buffer, unless a command is malformed, and the calls of `wal_push`. -/
def drainFlow (env : Nat → CommandEnv) : Nat → Nat → Relay → Bytes → Relay × Option Bytes × List (Bytes × Bool)
  | 0, _, r, buf => (r, some buf, [])
  | n + 1, i, r, buf =>
    if buf = [] then (r, some [], [])
    else
      match respCommandLen buf with
      | .incomplete => (r, some buf, [])
      | .malformed => (r, none, [])
      | .complete cmdLen =>
        let (r, push, _) := processFullCommand (env i) r (buf.take cmdLen)
        let (r, rest, pushes) := drainFlow env n (i + 1) r (buf.drop cmdLen)
        (r, rest, push.toList ++ pushes)

structure State where
  flows : List FlowState
  relay : Relay

structure EventEnv where
  now : Int
  malloc : Bool
  command : Nat → CommandEnv

def handleEvent (f : State) (input : Event × EventEnv) : State × List (Bytes × Bool) :=
  let (e, env) := input
  if e.payload = [] then (f, [])
  else if maxData < e.payload.length then (f, [])
  else
    match getFlowState env.now env.malloc f.flows e.key with
    | (flows, none) => ({ f with flows := flows }, [])
    | (flows, some i) =>
      if e.payload.length < e.fullLen.toNat then ({ f with flows := flows.modify i (resetFlowState env.now) }, [])
      else
        match flows[i]? with
        | none => ({ f with flows := flows }, [])
        | some st =>
          match normalizePayloadBySeq env.now st e with
          | (st, none) => ({ f with flows := flows.set i st }, [])
          | (st, some payload) =>
            if payload = [] then ({ f with flows := flows.set i st }, [])
            else if flowBufMax < st.buf.length + payload.length then
              ({ f with flows := flows.set i (resetFlowState env.now st) }, [])
            else
              let buf := st.buf ++ payload
              let (relay, rest, pushes) := drainFlow env.command buf.length 0 f.relay buf
              let st := match rest with
                | none => resetFlowState env.now st
                | some buf => { st with buf := buf, lastSeen := env.now }
              (⟨flows.set i st, relay⟩, pushes)

end Model

section Sequence

variable {isn : UInt32} {a b : Nat}

theorem tcpSeqBefore_iff (a b : UInt32) : tcpSeqBefore a b = true ↔ 2^31 ≤ (a - b).toNat := by
  rw [tcpSeqBefore, decide_eq_true_iff, Int32.lt_iff_toInt_lt]
  change (a - b).toBitVec.toInt < 0 ↔ 2^31 ≤ (a - b).toBitVec.toNat
  rw [BitVec.toInt_neg_iff]
  omega

theorem seq_sub (order : a ≤ b) (near : b - a < 2^32) : (isn + UInt32.ofNat b - (isn + UInt32.ofNat a)).toNat = b - a := by
  rw [UInt32.toNat_sub, UInt32.toNat_add, UInt32.toNat_add, UInt32.toNat_ofNat', UInt32.toNat_ofNat']
  omega

theorem seq_before (order : a < b) (near : b - a < 2^31) : tcpSeqBefore (isn + UInt32.ofNat a) (isn + UInt32.ofNat b) = true := by
  rw [tcpSeqBefore_iff, UInt32.toNat_sub, UInt32.toNat_add, UInt32.toNat_add, UInt32.toNat_ofNat', UInt32.toNat_ofNat']
  omega

theorem seq_ne (order : a < b) (near : b - a < 2^32) : isn + UInt32.ofNat a ≠ isn + UInt32.ofNat b := by
  intro same
  have distance : (isn + UInt32.ofNat b - (isn + UInt32.ofNat a)).toNat = b - a := seq_sub order.le near
  rw [same, UInt32.sub_self] at distance
  have zero : (0 : UInt32).toNat = 0 := rfl
  omega

end Sequence

end AICacheDB.Forwarder
