import Mathlib.Data.List.Nodup
import MangOH.Lib.Machine
import MangOH.Mt7697q.Queue

/-! The stations of an access point, as indications of the firmware and stops change their list. -/
namespace MangOH.Mt7697wifi
open Lib
open Mt7697q (Errno)

abbrev Bssid := BitVec 48

/-- `MT7697_MAX_STA` -/
def maxSta : Nat := 10

inductive IfType
  | station
  | ap
deriving DecidableEq

inductive OpMode
  | staOnly
  | apOnly
deriving DecidableEq

inductive SmeState
  | disconnected
  | connecting
  | connected
deriving DecidableEq

/-- `mt7697_vif`, the mode of its driver, and how often `sta_list_lock` was taken and released. -/
structure Vif where
  opmode : OpMode
  iftype : IfType
  smeState : SmeState := .disconnected
  connected : Bool := false
  connectPend : Bool := false
  staList : List Bssid := []
  staCount : Nat := 0
  staMax : Nat := maxSta
  taken : Nat := 0
  released : Nat := 0
deriving DecidableEq

namespace Vif

def lock (vif : Vif) : Vif := { vif with taken := vif.taken + 1 }

def unlock (vif : Vif) : Vif := { vif with released := vif.released + 1 }

end Vif

/-- `mt7697_cfg80211_new_sta`; `sta_count` is a `u8`. -/
def newSta (vif : Vif) (bssid : Bssid) (kmalloc : Bool) : Except Errno Unit × Vif :=
  if vif.staCount > vif.staMax then (.error .inval, vif)
  else if !kmalloc then (.error .nomem, vif)
  else
    let vif := vif.lock
    let vif := { vif with
      staList := vif.staList ++ [bssid]
      staCount := (vif.staCount + 1) % 2 ^ 8 }
    (.ok (), vif.unlock)

/-- `mt7697_cfg80211_del_sta`; `disconnectReq` is what `mt7697_wr_disconnect_req` returns. -/
def delSta (vif : Vif) (bssid : Bssid) (disconnectReq : Except Errno Unit) :
    Except Errno Unit × Vif :=
  let vif := vif.lock
  if bssid ∈ vif.staList then
    let vif := vif.unlock
    match disconnectReq with
    | .error e => (.error e, vif.unlock)
    | .ok () =>
      let vif := vif.lock
      let vif := { vif with
        staList := vif.staList.erase bssid
        staCount := (vif.staCount + 2 ^ 8 - 1) % 2 ^ 8 }
      (.ok (), vif.unlock)
  else (.error .inval, vif.unlock)

/-- `mt7697_proc_connect_ind`, once it has read the indication. In station mode
`mt7697_cfg80211_connect_event` sets the flags whatever it returns. -/
def procConnectInd (vif : Vif) (bssid : Bssid) (kmalloc : Bool) : Vif :=
  match vif.opmode with
  | .staOnly => if vif.connectPend then
      { vif with connected := true, connectPend := false } else vif
  | .apOnly =>
    match newSta vif bssid kmalloc with
    | (.error _, vif) => vif
    | (.ok (), vif) => { vif with connected := true }

/-- `mt7697_proc_disconnect_ind`, once it has read the indication. -/
def procDisconnectInd (vif : Vif) (bssid : Bssid) (disconnectReq : Except Errno Unit) : Vif :=
  let (ret, vif) := match vif.opmode with
    | .staOnly => (disconnectReq, vif)
    | .apOnly => delSta vif bssid disconnectReq
  match ret with
  | .error _ => vif
  | .ok () => { vif with smeState := .disconnected, connectPend := false, connected := false }

/-- The loop of `mt7697_cfg80211_stop` over the stations, entered with the lock. -/
def stopStations : List (Except Errno Unit) → List Bssid → Vif → Except Errno Unit × Vif
  | _, [], vif => (.ok (), vif)
  | reqs, _ :: rest, vif =>
    let vif := vif.unlock
    match reqs.headD (.ok ()) with
    | .error e => (.error e, vif)
    | .ok () =>
      let vif := vif.lock
      stopStations reqs.tail rest { vif with staList := rest }

/-- `mt7697_cfg80211_stop` up to its change of the mode; `reqs` are the results of its disconnect
requests. -/
def stop (vif : Vif) (reqs : List (Except Errno Unit)) : Vif :=
  let (ret, vif) := match vif.iftype with
    | .station => (reqs.headD (.ok ()), vif)
    | .ap =>
      match stopStations reqs vif.staList vif.lock with
      | (.error e, vif) => (.error e, vif)
      | (.ok (), vif) => (.ok (), { vif with staCount := 0 }.unlock)
  match ret with
  | .error _ => vif
  | .ok () => { vif with
      smeState := .disconnected
      connected := false
      connectPend := false
      opmode := .staOnly
      iftype := .station }

/-- `IW_MODE_MASTER` of the wireless extensions: a station that is connected stays one. -/
def siwmodeMaster (vif : Vif) : Vif :=
  match vif.opmode with
  | .apOnly => vif
  | .staOnly =>
    if vif.connected || vif.connectPend then vif else { vif with opmode := .apOnly, iftype := .ap }

inductive StaEvent
  | connectInd (bssid : Bssid) (kmalloc : Bool)
  | disconnectInd (bssid : Bssid) (disconnectReq : Except Errno Unit)
  | stop (reqs : List (Except Errno Unit))
  | siwmodeMaster

def Vif.handle (vif : Vif) : StaEvent → Vif
  | .connectInd bssid kmalloc => procConnectInd vif bssid kmalloc
  | .disconnectInd bssid disconnectReq => procDisconnectInd vif bssid disconnectReq
  | .stop reqs => Mt7697wifi.stop vif reqs
  | .siwmodeMaster => Mt7697wifi.siwmodeMaster vif

/-- An interface in either mode, with no station yet. -/
def staMachine : Machine Vif StaEvent where
  Init vif := vif = { opmode := .apOnly, iftype := .ap }
    ∨ ∃ smeState connected connectPend,
        vif = { opmode := .staOnly, iftype := .station, smeState, connected, connectPend }
  Step vif e vif' := vif' = vif.handle e

/-- What is said of the list of stations after each operation. -/
structure StaListOk (vif : Vif) : Prop where
  count : vif.staCount = vif.staList.length
  count_le : vif.staCount ≤ vif.staMax
  distinct : vif.staList.Nodup
  balanced : vif.taken = vif.released
  connected_iff : vif.opmode = .apOnly → (vif.connected = true ↔ vif.staList ≠ [])

/-- In access-point mode: a station that connects is new and there is room for it, one that
disconnects is the only one and its request succeeds, or there is no such station, and the
requests of a stop all succeed or the first one fails. -/
def staHealthy (vif : Vif) : StaEvent → Prop
  | .connectInd bssid kmalloc => vif.opmode = .apOnly →
      kmalloc = false ∨ bssid ∉ vif.staList ∧ vif.staCount < vif.staMax
  | .disconnectInd bssid disconnectReq => vif.opmode = .apOnly →
      bssid ∉ vif.staList ∨ vif.staList = [bssid] ∧ disconnectReq = .ok ()
  | .stop reqs => vif.opmode = .apOnly → (∃ e, reqs.headD (.ok ()) = .error e) ∨
      ∀ i < vif.staList.length, reqs.getD i (.ok ()) = .ok ()
  | .siwmodeMaster => True

structure StaListInv (vif : Vif) : Prop extends StaListOk vif where
  staMax_eq : vif.staMax = maxSta
  mode : vif.opmode = .apOnly ↔ vif.iftype = .ap
  station_nil : vif.opmode = .staOnly → vif.staList = []

section Steps

variable {vif vif' : Vif} {bssid : Bssid}

theorem newSta_of_le (h : vif.staCount ≤ vif.staMax) (kmalloc : Bool) :
    newSta vif bssid kmalloc = if kmalloc then (.ok (), { vif with
      staList := vif.staList ++ [bssid]
      staCount := (vif.staCount + 1) % 2 ^ 8
      taken := vif.taken + 1
      released := vif.released + 1 }) else (.error .nomem, vif) := by
  unfold newSta
  rw [if_neg (by omega)]
  cases kmalloc <;> rfl

theorem delSta_of_notMem (h : bssid ∉ vif.staList) (disconnectReq : Except Errno Unit) :
    delSta vif bssid disconnectReq
      = (.error .inval, { vif with taken := vif.taken + 1, released := vif.released + 1 }) := by
  unfold delSta
  exact if_neg h

theorem delSta_of_mem (h : bssid ∈ vif.staList) :
    delSta vif bssid (.ok ()) = (.ok (), { vif with
      staList := vif.staList.erase bssid
      staCount := (vif.staCount + 2 ^ 8 - 1) % 2 ^ 8
      taken := vif.taken + 2
      released := vif.released + 2 }) := by
  unfold delSta
  exact if_pos h

/-- In station mode the list is left alone. -/
theorem StaListInv.flags (h : StaListInv vif) (hmode : vif.opmode = .staOnly)
    (smeState : SmeState) (connected connectPend : Bool) :
    StaListInv { vif with smeState, connected, connectPend } :=
  ⟨⟨h.count, h.count_le, h.distinct, h.balanced, fun hap => by simp [hmode] at hap⟩, h.staMax_eq,
    h.mode, h.station_nil⟩

theorem StaListInv.connectInd (h : StaListInv vif) {kmalloc : Bool}
    (hok : vif.opmode = .apOnly →
      kmalloc = false ∨ bssid ∉ vif.staList ∧ vif.staCount < vif.staMax) :
    StaListInv (procConnectInd vif bssid kmalloc) := by
  unfold procConnectInd
  split
  · next hmode =>
    split
    · exact h.flags hmode _ _ _
    · exact h
  · next hmode =>
    rw [newSta_of_le h.count_le]
    rcases hok hmode with rfl | ⟨hnew, hlt⟩
    · exact h
    cases kmalloc with
    | false => exact h
    | true =>
      have hmax := h.staMax_eq
      have hcount := h.count
      unfold maxSta at hmax
      have hmod : (vif.staCount + 1) % 2 ^ 8 = vif.staCount + 1 := Nat.mod_eq_of_lt (by omega)
      refine ⟨⟨?_, ?_, ?_, congrArg (· + 1) h.balanced, fun _ => ?_⟩, h.staMax_eq, h.mode,
        fun hsta => ?_⟩
      · change (vif.staCount + 1) % 2 ^ 8 = (vif.staList ++ [bssid]).length
        rw [hmod, hcount, List.length_append, List.length_singleton]
      · change (vif.staCount + 1) % 2 ^ 8 ≤ vif.staMax
        omega
      · exact List.nodup_append.mpr ⟨h.distinct, List.nodup_singleton _, by
          intro a ha b hb heq
          rw [List.mem_singleton] at hb
          exact hnew (hb ▸ heq ▸ ha)⟩
      · simp
      · rw [show vif.opmode = .staOnly from hsta] at hmode
        contradiction

theorem StaListInv.disconnectInd (h : StaListInv vif) {disconnectReq : Except Errno Unit}
    (hok : vif.opmode = .apOnly →
      bssid ∉ vif.staList ∨ vif.staList = [bssid] ∧ disconnectReq = .ok ()) :
    StaListInv (procDisconnectInd vif bssid disconnectReq) := by
  unfold procDisconnectInd
  cases hmode : vif.opmode with
  | staOnly =>
    cases disconnectReq with
    | error e => exact h
    | ok _ => exact h.flags hmode _ _ _
  | apOnly =>
    rcases hok hmode with habsent | ⟨honly, rfl⟩
    · dsimp only
      rw [delSta_of_notMem habsent]
      exact ⟨⟨h.count, h.count_le, h.distinct, congrArg (· + 1) h.balanced, h.connected_iff⟩,
        h.staMax_eq, h.mode, h.station_nil⟩
    · have hcount := h.count
      rw [honly] at hcount
      dsimp only
      rw [delSta_of_mem (by simp [honly])]
      refine ⟨⟨?_, ?_, ?_, congrArg (· + 2) h.balanced, fun _ => ?_⟩, h.staMax_eq, h.mode,
          fun hsta => ?_⟩
      · simp [honly, hcount]
      · simp [hcount]
      · simp [honly]
      · simp [honly]
      · rw [show vif.opmode = .staOnly from hsta] at hmode
        contradiction

/-- The loop of a stop whose requests succeed empties the list, and takes and releases the lock
once for each station. -/
theorem stopStations_ok {reqs : List (Except Errno Unit)} {list : List Bssid}
    (hlist : vif.staList = list) (hok : ∀ i < list.length, reqs.getD i (.ok ()) = .ok ()) :
    stopStations reqs list vif = (.ok (), { vif with
      staList := []
      taken := vif.taken + list.length
      released := vif.released + list.length }) := by
  induction list generalizing vif reqs with
  | nil =>
    obtain ⟨opmode, iftype, sme, connected, pend, list, count, max, taken, released⟩ := vif
    obtain rfl : list = [] := hlist
    cases reqs <;> rfl
  | cons sta rest ih =>
    have hhead : reqs.headD (.ok ()) = .ok () := by
      have := hok 0 (by simp)
      cases reqs with
      | nil => rfl
      | cons req reqs => exact this
    have hrest : ∀ i < rest.length, reqs.tail.getD i (.ok ()) = .ok () := by
      intro i hi
      have := hok (i + 1) (by simpa using hi)
      cases reqs with
      | nil => rfl
      | cons req reqs => exact this
    simp only [stopStations, hhead]
    rw [ih rfl hrest]
    simp [Vif.lock, Vif.unlock]
    omega

/-- A stop that is through leaves an interface in station mode. -/
theorem StaListInv.stopped (h : StaListInv vif) {taken released : Nat} (hbal : taken = released) :
    StaListInv { vif with
      staList := []
      staCount := 0
      taken
      released
      smeState := .disconnected
      connected := false
      connectPend := false
      opmode := .staOnly
      iftype := .station } :=
  ⟨⟨rfl, Nat.zero_le _, List.nodup_nil, hbal, by simp⟩, h.staMax_eq, by simp, fun _ => rfl⟩

theorem StaListInv.stop (h : StaListInv vif) {reqs : List (Except Errno Unit)}
    (hok : vif.opmode = .apOnly → (∃ e, reqs.headD (.ok ()) = .error e) ∨
      ∀ i < vif.staList.length, reqs.getD i (.ok ()) = .ok ()) :
    StaListInv (stop vif reqs) := by
  unfold Mt7697wifi.stop
  cases hmode : vif.iftype with
  | station =>
    have hsta : vif.opmode = .staOnly := by
      cases hop : vif.opmode with
      | staOnly => rfl
      | apOnly =>
        rw [h.mode.mp hop] at hmode
        contradiction
    have hnil := h.station_nil hsta
    have hcount := h.count
    rw [hnil] at hcount
    cases reqs.headD (.ok ()) with
    | error e => exact h
    | ok _ => simpa [hnil, hcount] using h.stopped h.balanced
  | ap =>
    rcases hok (h.mode.mpr hmode) with ⟨e, hfirst⟩ | hall
    · cases hlist : vif.staList with
      | nil =>
        simpa [stopStations, Vif.lock, Vif.unlock, hlist]
          using h.stopped (congrArg (· + 1) h.balanced)
      | cons sta rest =>
        simp only [stopStations, hfirst]
        exact ⟨⟨h.count, h.count_le, h.distinct, congrArg (· + 1) h.balanced, h.connected_iff⟩,
          h.staMax_eq, h.mode, h.station_nil⟩
    · have hrun := stopStations_ok (show vif.lock.staList = vif.staList from rfl) hall
      dsimp only
      rw [hrun]
      have hbal : vif.taken + 1 + vif.staList.length = vif.released + vif.staList.length + 1 := by
        rw [h.balanced]
        omega
      exact h.stopped hbal

theorem StaListInv.siwmodeMaster (h : StaListInv vif) : StaListInv (siwmodeMaster vif) := by
  unfold Mt7697wifi.siwmodeMaster
  split
  · exact h
  · next hmode =>
    split
    · exact h
    · next hidle =>
      have hnil := h.station_nil hmode
      have hconn : vif.connected = false := by simp at hidle; exact hidle.1
      exact ⟨⟨h.count, h.count_le, h.distinct, h.balanced, fun _ => by simp [hnil, hconn]⟩,
        h.staMax_eq, by simp, (by simp)⟩

/-- While stations come and go one at a time, within the limit, and no request fails half-way, the
list of stations, its count, its lock and the flag agree. -/
theorem staListOk_of_healthy (h : staMachine.Reached staHealthy vif) : StaListOk vif := by
  refine (h.invariant StaListInv ?_ ?_).toStaListOk
  · rintro vif (rfl | ⟨smeState, connected, connectPend, rfl⟩)
    · exact ⟨⟨rfl, by decide, List.nodup_nil, rfl, fun _ => by simp⟩, rfl, by simp, by simp⟩
    · exact ⟨⟨rfl, Nat.zero_le _, List.nodup_nil, rfl, by simp⟩, rfl, by simp, fun _ => rfl⟩
  · rintro vif e _ hinv hok rfl
    cases e with
    | connectInd bssid kmalloc => exact hinv.connectInd hok
    | disconnectInd bssid disconnectReq => exact hinv.disconnectInd hok
    | stop reqs => exact hinv.stop hok
    | siwmodeMaster => exact hinv.siwmodeMaster

end Steps

section Failures

def emptyAp : Vif := { opmode := .apOnly, iftype := .ap }

theorem staListOk_of_healthy_oneStation : StaListOk (emptyAp.handle (.connectInd 1 true)) :=
  staListOk_of_healthy (.step (a := .connectInd 1 true) (.init (.inl rfl))
    (fun _ => .inr ⟨by decide, by decide⟩) rfl)

/-- A disconnect request that fails releases the lock twice. -/
theorem staListOk_fails :
    staMachine.Reached (fun _ _ => True)
        ((emptyAp.handle (.connectInd 1 true)).handle (.disconnectInd 1 (.error .io)))
      ∧ ¬ StaListOk ((emptyAp.handle (.connectInd 1 true)).handle
          (.disconnectInd 1 (.error .io))) := by
  refine ⟨.step (.step (.init (.inl rfl)) trivial rfl) trivial rfl, fun h => ?_⟩
  have := h.balanced
  revert this
  decide

/-- When the first of two stations leaves, the flag says that none is left. -/
example : ((emptyAp.handle (.connectInd 1 true)).handle (.connectInd 2 true)).handle
    (.disconnectInd 1 (.ok ()))
      = { emptyAp with staList := [2], staCount := 1, taken := 4, released := 4 } := by decide

end Failures

end MangOH.Mt7697wifi
