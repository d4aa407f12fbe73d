import MangOH.Mt7697wifi.TxPool

/-! Where the WiFi driver copies packets to, and how much of them. -/
namespace MangOH.Mt7697wifi
open Interaction Lib Mt7697q

/-! ### Received packets -/

section Receive

variable {α : Type} {rsp : RspHdr} {o : Outcome} {i before num : Nat}

/-- The arrays of `mt7697_cfg80211_info` that packets are read into. -/
inductive RxArray
  | rxData
  | probeData
deriving DecidableEq

/-- The bytes that an array has. -/
def RxArray.size : RxArray → Nat
  | .rxData => len32Aligned ieee80211MaxFrameLen
  | .probeData => len32Aligned ieee80211MaxDataLen

end Receive

/-! ### Packets to send -/

section Transmit

variable {τ : Type} {write : τ → List Word → Except Errno Nat × τ} {path : TxPath τ} {skb : Skb}
  {s t : TxState τ} {data : List UInt8}

/-- `sizeof(cfg->tx_req.data)` -/
def sizeofTxData : Nat := len32Aligned ieee80211MaxFrameLen

/-- `sizeof(struct ieee80211_hdr)` -/
def sizeofIeee80211Hdr : Nat := 30

/-- A call copies no more than there is room for, announces all that it sends, and does not send
what is too short. -/
structure CallOk (write : τ → List Word → Except Errno Nat × τ) (path : TxPath τ) (skb : Skb) :
    Prop where
  fits : skb.data.length ≤ sizeofTxData
  cmdLen : (sendPacket write path skb).txReq.cmdLen = 4 + 4 + skb.data.length
  undersized : skb.data.length < sizeofIeee80211Hdr →
    (sendPacket write path skb).log = path.log

end Transmit

end MangOH.Mt7697wifi
