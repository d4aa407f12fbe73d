import Mathlib.Algebra.GroupWithZero.Nat
import Mathlib.Tactic.ByContra
import Mathlib.Tactic.SplitIfs
import MangOH.Mt7697q.Queue

/-! The response frames of the MT7697 and the command handlers that read their bodies. -/
namespace MangOH.Mt7697q
open Interaction

/-- `LEN_TO_WORD` -/
def lenToWord (x : Nat) : Nat := x / 4 + if x % 4 ≠ 0 then 1 else 0

/-- `LEN32_ALIGNED` -/
def len32Aligned (x : Nat) : Nat := lenToWord x * 4

/-- `struct mt7697_rsp_hdr` -/
structure RspHdr where
  len : Nat
  grp : Nat
  type : Nat
  result : Nat
deriving DecidableEq, Repr

def sizeofRspHdr : Nat := 8

/-- The header in two words of the queue. -/
def RspHdr.ofWords (cmd result : Word) : RspHdr :=
  ⟨cmd.toNat % 2 ^ 16, cmd.toNat / 2 ^ 16 % 2 ^ 8, cmd.toNat / 2 ^ 24, result.toNat⟩

def cmdGrpQueue : Nat := 0
def cmdGrpUart : Nat := 1
def cmdQueueInitRsp : Nat := 1
def cmdQueueResetRsp : Nat := 4

def cmdMacAddrRsp : Nat := 1
def cmdGetCfgRsp : Nat := 3
def cmdGetWirelessModeRsp : Nat := 5
def cmdSetWirelessModeRsp : Nat := 7
def cmdSetOpModeRsp : Nat := 9
def cmdGetListenIntervalRsp : Nat := 11
def cmdSetListenIntervalRsp : Nat := 13
def cmdSetSecurityModeRsp : Nat := 15
def cmdScanInd : Nat := 18
def cmdScanRsp : Nat := 20
def cmdScanCompleteInd : Nat := 21
def cmdScanStopRsp : Nat := 23
def cmdSetPmkRsp : Nat := 25
def cmdSetChannelRsp : Nat := 27
def cmdSetBssidRsp : Nat := 29
def cmdSetSsidRsp : Nat := 31
def cmdReloadSettingsRsp : Nat := 33
def cmdConnectInd : Nat := 34
def cmdDisconnectInd : Nat := 35
def cmdDisconnectRsp : Nat := 37
def cmdRxRaw : Nat := 39

def ethAlen : Nat := 6
def ieee80211MaxFrameLen : Nat := 2352
def ieee80211MaxDataLen : Nat := 2304
def sizeofWifiConfig : Nat := 209
def sizeofMacAddrRsp : Nat := sizeofRspHdr + len32Aligned ethAlen
def sizeofScanInd : Nat := sizeofRspHdr + 4 + 4
def sizeofConnectInd : Nat := sizeofRspHdr + 4 + 4 + len32Aligned ethAlen

/-- A handler asks the transport for words and is told how many it got. -/
abbrev Rx (α : Type) := Program Nat (fun _ => Nat) α

/-- What a handler cannot see in the header: whether the kernel has memory for it, and how it
ends once it has read its words. -/
structure Outcome where
  kzalloc : Bool
  rest : Except Errno Unit

/-- Reads one after the other; a short one ends the handler. -/
def readAll (rest : Except Errno Unit) : List Nat → Rx (Except Errno Unit)
  | [] => .done rest
  | num :: nums => .ask num fun ret =>
    if ret ≠ num then .done (.error .io) else readAll rest nums

/-- A handler that checks the length and then reads fields of fixed sizes. -/
def procFields (lenOk : Bool) (nums : List Nat) (o : Outcome) : Rx (Except Errno Unit) :=
  if !lenOk then .done (.error .inval) else readAll o.rest nums

def procMacAddr (rsp : RspHdr) (o : Outcome) : Rx (Except Errno Unit) :=
  procFields (rsp.len = sizeofMacAddrRsp) [lenToWord (len32Aligned ethAlen)] o

def procGetWirelessMode (rsp : RspHdr) (o : Outcome) : Rx (Except Errno Unit) :=
  procFields (sub32 rsp.len sizeofRspHdr = 4) [lenToWord 4] o

def procGetListenInterval (rsp : RspHdr) (o : Outcome) : Rx (Except Errno Unit) :=
  procFields (sub32 rsp.len sizeofRspHdr = 4) [lenToWord 4] o

/-- The only handler that needs memory before it reads. -/
def procGetCfg (rsp : RspHdr) (o : Outcome) : Rx (Except Errno Unit) :=
  if sub32 rsp.len sizeofRspHdr ≠ len32Aligned sizeofWifiConfig then .done (.error .inval)
  else if !o.kzalloc then .done (.error .nomem)
  else readAll o.rest [lenToWord sizeofWifiConfig]

def procConnectInd (rsp : RspHdr) (o : Outcome) : Rx (Except Errno Unit) :=
  procFields (rsp.len = sizeofConnectInd)
    [lenToWord 4, lenToWord 4, lenToWord (len32Aligned ethAlen)] o

def procScanRsp (o : Outcome) : Rx (Except Errno Unit) := procFields true [lenToWord 4] o

def procScanCompleteInd (o : Outcome) : Rx (Except Errno Unit) := procFields true [lenToWord 4] o

def procDisconnectInd (o : Outcome) : Rx (Except Errno Unit) :=
  procFields true [lenToWord 4, lenToWord (len32Aligned ethAlen)] o

/-- The probe response is as long as the result says, whatever the length says. -/
def procScanInd (rsp : RspHdr) (o : Outcome) : Rx (Except Errno Unit) :=
  if rsp.len ≤ sizeofScanInd then .done (.error .inval)
  else if rsp.result > ieee80211MaxDataLen ∨ rsp.result = 0 then
    readAll (.error .inval) [lenToWord 4, lenToWord 4]
  else readAll o.rest [lenToWord 4, lenToWord 4, lenToWord (len32Aligned rsp.result)]

def rxRaw (rsp : RspHdr) (o : Outcome) : Rx (Except Errno Unit) :=
  if rsp.len ≤ sizeofRspHdr then .done (.error .inval)
  else if rsp.result > ieee80211MaxFrameLen then .done (.error .inval)
  else readAll o.rest [lenToWord (len32Aligned rsp.result)]

/-- The responses that `mt7697_proc_80211cmd` only reports. -/
def ackTypes : List Nat :=
  [cmdSetOpModeRsp, cmdSetPmkRsp, cmdSetChannelRsp, cmdSetBssidRsp, cmdSetSsidRsp,
    cmdReloadSettingsRsp, cmdSetListenIntervalRsp, cmdSetWirelessModeRsp, cmdSetSecurityModeRsp,
    cmdScanStopRsp, cmdDisconnectRsp]

def proc80211cmd (rsp : RspHdr) (o : Outcome) : Rx (Except Errno Unit) :=
  if rsp.type = cmdMacAddrRsp then procMacAddr rsp o
  else if rsp.type = cmdGetWirelessModeRsp then procGetWirelessMode rsp o
  else if rsp.type = cmdGetCfgRsp then procGetCfg rsp o
  else if rsp.type = cmdGetListenIntervalRsp then procGetListenInterval rsp o
  else if rsp.type = cmdScanRsp then procScanRsp o
  else if rsp.type = cmdScanInd then procScanInd rsp o
  else if rsp.type = cmdScanCompleteInd then procScanCompleteInd o
  else if rsp.type = cmdConnectInd then procConnectInd rsp o
  else if rsp.type = cmdDisconnectInd then procDisconnectInd o
  else if rsp.type = cmdRxRaw then rxRaw rsp o
  else if ackTypes.contains rsp.type then .done (.ok ())
  else .done (.error .inval)

/-- `mt7697q_proc_queue_rsp` reads no body. -/
def procQueueRsp (rsp : RspHdr) : Except Errno Unit :=
  if rsp.type = cmdQueueInitRsp ∨ rsp.type = cmdQueueResetRsp then .ok () else .error .inval

/-- The words that a frame has behind its header. -/
def RspHdr.bodyWords (rsp : RspHdr) : Nat := lenToWord (rsp.len - sizeofRspHdr)

/-- The words that a handler asks for when it gets them all. -/
def asked {α : Type} : Rx α → Nat
  | .done _ => 0
  | .ask num next => num + asked (next num)

/-- The frames whose handler reads what the header says: an empty body, or one of the length that
its command has. -/
def RspHdr.Fits (rsp : RspHdr) (kzalloc : Bool) : Prop :=
  if rsp.type = cmdScanRsp ∨ rsp.type = cmdScanCompleteInd then rsp.bodyWords = 1
  else if rsp.type = cmdDisconnectInd then rsp.bodyWords = 3
  else rsp.len ≤ sizeofRspHdr ∨
    if rsp.type = cmdMacAddrRsp then rsp.len = sizeofMacAddrRsp
    else if rsp.type = cmdGetWirelessModeRsp ∨ rsp.type = cmdGetListenIntervalRsp then
      rsp.len = sizeofRspHdr + 4
    else if rsp.type = cmdGetCfgRsp then
      rsp.len = sizeofRspHdr + len32Aligned sizeofWifiConfig ∧ kzalloc = true
    else if rsp.type = cmdConnectInd then rsp.len = sizeofConnectInd
    else if rsp.type = cmdScanInd then
      sizeofScanInd < rsp.len ∧ 0 < rsp.result ∧ rsp.result ≤ ieee80211MaxDataLen ∧
        rsp.bodyWords = 2 + lenToWord rsp.result
    else if rsp.type = cmdRxRaw then
      rsp.result ≤ ieee80211MaxFrameLen ∧ rsp.bodyWords = lenToWord rsp.result
    else False

theorem lenToWord_eq_zero {x : Nat} : lenToWord x = 0 ↔ x = 0 := by
  unfold lenToWord
  split <;> omega

@[simp] theorem lenToWord_len32Aligned (x : Nat) : lenToWord (len32Aligned x) = lenToWord x := by
  simp [lenToWord, len32Aligned]

theorem RspHdr.bodyWords_eq_zero {rsp : RspHdr} : rsp.bodyWords = 0 ↔ rsp.len ≤ sizeofRspHdr := by
  rw [bodyWords, lenToWord_eq_zero, sizeofRspHdr]
  omega

theorem asked_readAll (rest : Except Errno Unit) (nums : List Nat) :
    asked (readAll rest nums) = nums.sum := by
  induction nums with
  | nil => rfl
  | cons num nums ih => simp [readAll, asked, ih]

theorem asked_procFields (lenOk : Bool) (nums : List Nat) (o : Outcome) :
    asked (procFields lenOk nums o) = if lenOk then nums.sum else 0 := by
  cases lenOk <;> simp [procFields, asked, asked_readAll]

theorem sub32_hdr {len n : Nat} (h : len < 2 ^ 16) (hn : n < 2 ^ 16) :
    sub32 len 8 = n ↔ len = 8 + n := by
  unfold sub32
  omega

theorem asked_procMacAddr (rsp : RspHdr) (o : Outcome) :
    asked (procMacAddr rsp o) = if rsp.len = 16 then 2 else 0 := by
  simp [procMacAddr, asked_procFields, sizeofMacAddrRsp, sizeofRspHdr, ethAlen, len32Aligned,
    lenToWord]

theorem asked_procGetWirelessMode {rsp : RspHdr} (h : rsp.len < 2 ^ 16) (o : Outcome) :
    asked (procGetWirelessMode rsp o) = if rsp.len = 12 then 1 else 0 := by
  have hlen := sub32_hdr (n := 4) h (by decide)
  simp [procGetWirelessMode, asked_procFields, sizeofRspHdr, hlen, lenToWord]

theorem asked_procGetListenInterval {rsp : RspHdr} (h : rsp.len < 2 ^ 16) (o : Outcome) :
    asked (procGetListenInterval rsp o) = if rsp.len = 12 then 1 else 0 :=
  asked_procGetWirelessMode h o

theorem asked_procGetCfg {rsp : RspHdr} (h : rsp.len < 2 ^ 16) (o : Outcome) :
    asked (procGetCfg rsp o) = if rsp.len = 220 ∧ o.kzalloc then 53 else 0 := by
  have hlen := sub32_hdr (n := 212) h (by decide)
  have hsize : len32Aligned sizeofWifiConfig = 212 := rfl
  unfold procGetCfg
  simp only [hsize, sizeofRspHdr, ne_eq, hlen]
  cases hz : o.kzalloc <;> by_cases hl : rsp.len = 220 <;>
    simp [hl, asked, asked_readAll, sizeofWifiConfig, lenToWord]

theorem asked_procConnectInd (rsp : RspHdr) (o : Outcome) :
    asked (procConnectInd rsp o) = if rsp.len = 24 then 4 else 0 := by
  simp [procConnectInd, asked_procFields, sizeofConnectInd, sizeofRspHdr, ethAlen, len32Aligned,
    lenToWord]

theorem asked_procScanInd (rsp : RspHdr) (o : Outcome) :
    asked (procScanInd rsp o) = if rsp.len ≤ 16 then 0
      else if rsp.result > 2304 ∨ rsp.result = 0 then 2 else 2 + lenToWord rsp.result := by
  unfold procScanInd
  simp only [sizeofScanInd, sizeofRspHdr, ieee80211MaxDataLen, lenToWord_len32Aligned]
  split_ifs
  · rfl
  · simp [asked_readAll, lenToWord]
  · simp [asked_readAll, lenToWord]
    omega

theorem asked_rxRaw (rsp : RspHdr) (o : Outcome) :
    asked (rxRaw rsp o) = if rsp.len ≤ 8 then 0
      else if rsp.result > 2352 then 0 else lenToWord rsp.result := by
  unfold rxRaw
  simp only [sizeofRspHdr, ieee80211MaxFrameLen, lenToWord_len32Aligned]
  split_ifs <;> simp [asked, asked_readAll]

/-- A handler that reads `n` words for one length, and none for the others. -/
theorem exactLength_iff {rsp : RspHdr} {len n : Nat} {c : Prop} [Decidable c]
    (hlen : len = 8 + 4 * n) :
    (if rsp.len = len ∧ c then n else 0) = rsp.bodyWords ↔ rsp.len ≤ 8 ∨ rsp.len = len ∧ c := by
  have hempty : rsp.bodyWords = 0 ↔ rsp.len ≤ 8 := rsp.bodyWords_eq_zero
  split
  case isTrue h =>
    refine iff_of_true ?_ (.inr h)
    rw [RspHdr.bodyWords, h.1, hlen, sizeofRspHdr, Nat.add_sub_cancel_left, lenToWord,
      Nat.mul_mod_right, Nat.mul_div_cancel_left n (by decide)]
    simp
  case isFalse h =>
    rw [eq_comm, hempty, or_iff_left h]

/-- A handler reads the whole body of a frame, and no more, exactly for these frames. -/
theorem asked_eq_bodyWords_iff {rsp : RspHdr} (h : rsp.len < 2 ^ 16) (o : Outcome) :
    asked (proc80211cmd rsp o) = rsp.bodyWords ↔ rsp.Fits o.kzalloc := by
  have hempty : rsp.bodyWords = 0 ↔ rsp.len ≤ 8 := rsp.bodyWords_eq_zero
  have hexact := fun len n => @exactLength_iff rsp len n True _
  simp only [and_true] at hexact
  simp only [proc80211cmd, RspHdr.Fits, cmdMacAddrRsp, cmdGetWirelessModeRsp, cmdGetCfgRsp,
    cmdGetListenIntervalRsp, cmdScanRsp, cmdScanInd, cmdScanCompleteInd, cmdConnectInd,
    cmdDisconnectInd, cmdRxRaw, sizeofMacAddrRsp, sizeofScanInd, sizeofConnectInd, sizeofRspHdr,
    sizeofWifiConfig, ieee80211MaxDataLen, ieee80211MaxFrameLen]
  by_cases hmac : rsp.type = 1
  · simpa [hmac, asked_procMacAddr, len32Aligned, lenToWord, ethAlen] using hexact 16 2
  by_cases hmode : rsp.type = 5
  · simpa [hmode, asked_procGetWirelessMode h] using hexact 12 1
  by_cases hcfg : rsp.type = 3
  · simpa [hcfg, asked_procGetCfg h, len32Aligned, lenToWord] using
      @exactLength_iff rsp 220 53 o.kzalloc _
  by_cases hinterval : rsp.type = 11
  · simpa [hinterval, asked_procGetListenInterval h] using hexact 12 1
  by_cases hscan : rsp.type = 20
  · simp [hscan, procScanRsp, asked_procFields, lenToWord, eq_comm]
  by_cases hind : rsp.type = 18
  · by_cases hshort : rsp.len ≤ 16
    · have : ¬ 8 + 4 + 4 < rsp.len := by omega
      have hnone : 0 = rsp.bodyWords ↔ rsp.len ≤ 8 := by rw [eq_comm, hempty]
      simpa [hind, asked_procScanInd, hshort, this] using hnone
    · have hlong : 8 + 4 + 4 < rsp.len := by omega
      have hbody : 2 < rsp.bodyWords := by
        unfold RspHdr.bodyWords lenToWord sizeofRspHdr
        split <;> omega
      by_cases hresult : rsp.result > 2304 ∨ rsp.result = 0
      · simp [hind, asked_procScanInd, hshort, hresult]
        omega
      · simp [hind, asked_procScanInd, hshort, hresult, eq_comm]
        omega
  by_cases hcomplete : rsp.type = 21
  · simp [hcomplete, procScanCompleteInd, asked_procFields, lenToWord, eq_comm]
  by_cases hconnect : rsp.type = 34
  · simpa [hconnect, asked_procConnectInd, len32Aligned, lenToWord, ethAlen] using hexact 24 4
  by_cases hdisconnect : rsp.type = 35
  · simp [hdisconnect, procDisconnectInd, asked_procFields, lenToWord, len32Aligned, ethAlen,
      eq_comm]
  by_cases hraw : rsp.type = 39
  · by_cases hshort : rsp.len ≤ 8
    · simpa [hraw, asked_rxRaw, hshort] using (hempty.mpr hshort).symm
    · by_cases hresult : rsp.result > 2352
      · simp [hraw, asked_rxRaw, hshort, hresult, eq_comm]
        omega
      · have hle : rsp.result ≤ 2352 := by omega
        simp [hraw, asked_rxRaw, hshort, hresult, hle, eq_comm]
  have hack : asked (if ackTypes.contains rsp.type then .done (.ok ())
      else .done (.error .inval) : Rx (Except Errno Unit)) = 0 := by
    split <;> rfl
  simp only [hmac, hmode, hcfg, hinterval, hscan, hind, hcomplete, hconnect, hdisconnect, hraw,
    if_false, or_false, hack]
  rw [eq_comm, hempty]

end MangOH.Mt7697q
