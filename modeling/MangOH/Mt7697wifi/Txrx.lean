import Mathlib.Data.List.Basic
import Mathlib.Logic.Function.Basic
import MangOH.Lib.Codec
import MangOH.Lib.Machine
import MangOH.Mt7697q.Handlers

/-! The transmit path of the WiFi driver: packets wait in a pool of slots for the work that writes
them to a queue. -/
namespace MangOH.Mt7697wifi
open Codec Lib Mt7697q

/-- `MT7697_TX_PKT_POOL_LEN` -/
abbrev txPktPoolLen : Nat := 256

/-- A socket buffer: the packet handed in by the network stack, or the driver's copy of it. -/
structure SkbRef where
  id : Nat
  isCopy : Bool
deriving DecidableEq

structure Skb where
  ref : SkbRef
  headroom : Nat
  data : List UInt8
deriving DecidableEq

/-- What becomes of packets and buffers, in order. -/
inductive TxAct
  | ok (id : Nat)
  | busy (id : Nat)
  | copied (id : Nat)
  | written (id : Nat) (words : List Word)
  | freed (ref : SkbRef)
  | dropped (id : Nat)
deriving DecidableEq

/-- `struct mt7697_tx_raw_packet`: the next packet overwrites the data of the last one. -/
structure TxReq where
  cmdLen : Nat
  cmdGrp : Nat
  cmdType : Nat
  len : Nat
  data : List UInt8

def cmdGrp80211 : Nat := 2
def cmdTxRaw : Nat := 38

def TxReq.bytes (req : TxReq) : List UInt8 :=
  encodeLe 2 req.cmdLen ++ encodeLe 1 req.cmdGrp ++ encodeLe 1 req.cmdType ++ encodeLe 4 req.len
    ++ req.data

/-- The first words of the request. -/
def TxReq.words (req : TxReq) (num : Nat) : List Word :=
  (List.range num).map fun i => UInt32.ofNat (decodeLe ((req.bytes.drop (4 * i)).take 4))

/-- The way to the queue, and what happened so far. `link` is the queue's state. -/
structure TxPath (τ : Type) where
  link : τ
  txReq : TxReq
  blockedWriter : Bool := false
  log : List TxAct := []

/-- `mt7697_cfg80211_info` as the transmit path uses it. -/
structure TxState (τ : Type) where
  path : TxPath τ
  txSkbPool : Nat → Option Skb := fun _ => none
  txSkbPoolIdx : Nat := 0
  txSkbList : List Nat := []
  txSkbQueue : List Skb := []
  txWorkPending : Bool := false

/-- What `netdev_tx_t` says. -/
inductive NetdevTx
  | ok
  | busy
deriving DecidableEq

section Driver

variable {τ : Type}

def TxState.act (s : TxState τ) (acts : List TxAct) : TxState τ :=
  { s with path := { s.path with log := s.path.log ++ acts } }

/-- `cmd.len` of a request with this much data. -/
def txCmdLen (len : Nat) : Nat := u16 (4 + 4 + len)

/-- The words that a packet takes in the queue. -/
def Skb.numWords (skb : Skb) : Nat := lenToWord (len32Aligned (txCmdLen skb.data.length))

def TxReq.fill (req : TxReq) (data : List UInt8) : TxReq :=
  { req with
    cmdLen := txCmdLen data.length
    len := data.length
    data := data ++ req.data.drop data.length }

variable (write : τ → List Word → Except Errno Nat × τ)

/-- `mt7697_wr_tx_raw_packet`. The write that has to wait sets the queue's flag. -/
def wrTxRawPacket (path : TxPath τ) (skb : Skb) : Except Errno Unit × TxPath τ :=
  let req := path.txReq.fill skb.data
  let words := req.words skb.numWords
  let reply := write path.link words
  let path := { path with
    link := reply.2
    txReq := req
    blockedWriter := path.blockedWriter || decide (reply.1 = .error .again) }
  match reply.1 with
  | .error e => (.error e, path)
  | .ok num =>
    if num ≠ skb.numWords then (.error .io, path)
    else (.ok (), { path with log := path.log ++ [.written skb.ref.id words] })

/-- A turn of the loop of `mt7697_tx_work`: an error of the write only counts as an error. -/
def sendPacket (path : TxPath τ) (skb : Skb) : TxPath τ := (wrTxRawPacket write path skb).2

def txLoop : List Nat → TxState τ → Option (TxState τ)
  | [], s => some s
  | i :: rest, s =>
    match s.txSkbPool i with
    | none => none
    | some skb =>
      txLoop rest { s with
        path := sendPacket write s.path skb
        txSkbList := s.txSkbList.erase i
        txSkbQueue := s.txSkbQueue ++ [skb]
        txSkbPool := Function.update s.txSkbPool i none }

/-- `__skb_queue_purge` -/
def purge (s : TxState τ) : TxState τ :=
  { s.act (s.txSkbQueue.map fun skb => .freed skb.ref) with txSkbQueue := [] }

/-- `mt7697_tx_work`, where there is one to run; `none` also if a linked slot has no packet. -/
def txWork (s : TxState τ) : Option (TxState τ) :=
  if s.txWorkPending then
    (txLoop write s.txSkbList { s with txWorkPending := false }).map purge
  else none

/-- `mt7697_tx_stop`: the slots keep their packets. -/
def txStop (s : TxState τ) : Option (TxState τ) :=
  if ∀ i ∈ s.txSkbList, s.txSkbPool i ≠ none then
    some { s.act ((s.txSkbList.filterMap s.txSkbPool).map fun skb => .dropped skb.ref.id) with
      txSkbList := [] }
  else none

/-- `mt7697_data_tx`, which needs so much headroom; `realloc` is whether `skb_realloc_headroom`
finds memory. The queueing of a work never returns a negative number. -/
def dataTx (neededHeadroom : Nat) (s : TxState τ) (skb : Skb) (realloc : Bool) :
    NetdevTx × TxState τ :=
  if skb.headroom < neededHeadroom ∧ !realloc then (.ok, s.act [.freed skb.ref, .ok skb.ref.id])
  else
    let copies := skb.headroom < neededHeadroom
    let s := if copies then s.act [.copied skb.ref.id, .freed skb.ref] else s
    let skb := if copies then { skb with ref.isCopy := true, headroom := neededHeadroom } else skb
    match s.txSkbPool s.txSkbPoolIdx with
    | some _ => (.busy, s.act [.freed skb.ref, .busy skb.ref.id])
    | none =>
      let idx := s.txSkbPoolIdx + 1
      (.ok, { s.act [.ok skb.ref.id] with
        txSkbPool := Function.update s.txSkbPool s.txSkbPoolIdx (some skb)
        txSkbPoolIdx := if idx ≥ txPktPoolLen then 0 else idx
        txSkbList := s.txSkbList ++ [s.txSkbPoolIdx]
        txWorkPending := true })

/-- `mt7697_notify_tx`. The length is read where the head of the list would have its packet. -/
def notifyTx (s : TxState τ) (headLen free : Nat) : TxState τ :=
  if s.txSkbList ≠ [] then
    if headLen ≥ free then
      { s with path := { s.path with blockedWriter := false }, txWorkPending := true }
    else s
  else s

/-- What happens to the transmit path. -/
inductive TxEvent (τ : Type)
  | dataTx (skb : Skb) (realloc : Bool)
  | txWork
  | txStop
  | notifyTx (headLen free : Nat)
  | slave (link : τ)

/-- The stack hands in packets of its own, and none again that it was told is sent; the queue's
other end works as `env` allows. -/
def txMachine (env : τ → τ → Prop) (neededHeadroom : Nat) (link : τ) (txReq : TxReq) :
    Machine (TxState τ) (TxEvent τ) where
  Init s := s = { path := { link := link, txReq := txReq } }
  Step s e t := match e with
    | .dataTx skb realloc =>
      skb.ref.isCopy = false ∧ .ok skb.ref.id ∉ s.path.log
        ∧ t = (dataTx neededHeadroom s skb realloc).2
    | .txWork => txWork write s = some t
    | .txStop => txStop s = some t
    | .notifyTx headLen free => t = notifyTx s headLen free
    | .slave link => env s.path.link link ∧ t = { s with path := { s.path with link := link } }

end Driver

end MangOH.Mt7697wifi
