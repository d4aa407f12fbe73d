import MangOH.Lib.Machine

/-! The multiplexers of the board: a bus is switched to one of two places, and stays there as long
as somebody uses it. -/
namespace MangOH.RedMux
open Lib

inductive SdioSelection
  | sdCardSlot
  | iotSlot
deriving DecidableEq

inductive PcmSelection
  | iotSlot
  | onboard
deriving DecidableEq

inductive Errno
  | busy
  | acces
  | nolck
  /-- of a gpio -/
  | code (n : Int)
deriving DecidableEq

abbrev Ret := Except Errno Unit

/-- How the line is left by a `gpio_direction_output`. -/
inductive GpioAnswer
  | done
  | failed (n : Int) (level : Bool)

structure Mux (α : Type) where
  currentSelection : α
  numRequested : UInt32
  /-- of the line that switches the bus -/
  level : Bool

inductive MuxCall (α : Type)
  | select (selection : α) (gpio : GpioAnswer)
  | release (selection : α)

section Calls

variable {α : Type} [DecidableEq α] (high : α)

/-- What the two select functions have in common; the line is high for one of the places. -/
def Mux.select (m : Mux α) (selection : α) (gpio : GpioAnswer) : Ret × Mux α :=
  if selection = m.currentSelection then (.ok (), { m with numRequested := m.numRequested + 1 })
  else if m.numRequested = 0 then
    match gpio with
    | .failed n level => (.error (.code n), { m with level := level })
    | .done => (.ok (), ⟨selection, m.numRequested + 1, decide (selection = high)⟩)
  else (.error .busy, m)

/-- What the two release functions have in common. -/
def Mux.release (m : Mux α) (selection : α) : Ret × Mux α :=
  if selection ≠ m.currentSelection then (.error .acces, m)
  else if m.numRequested ≠ 0 then (.ok (), { m with numRequested := m.numRequested - 1 })
  else (.error .nolck, m)

def Mux.call (m : Mux α) : MuxCall α → Ret × Mux α
  | .select selection gpio => m.select high selection gpio
  | .release selection => m.release selection

end Calls

/-- A multiplexer, and what its clients were told since the start. -/
structure Tracked (α : Type) where
  mux : Mux α
  history : List (MuxCall α × Ret) := []

def Tracked.call {α : Type} (run : Mux α → MuxCall α → Ret × Mux α) (t : Tracked α)
    (c : MuxCall α) : Tracked α :=
  ⟨(run t.mux c).2, t.history ++ [(c, (run t.mux c).1)]⟩

/-- `mangoh_red_mux_sdio_select` -/
def sdioSelect (m : Mux SdioSelection) : SdioSelection → GpioAnswer → Ret × Mux SdioSelection :=
  m.select .sdCardSlot

/-- `mangoh_red_mux_sdio_release` -/
def sdioRelease (m : Mux SdioSelection) : SdioSelection → Ret × Mux SdioSelection := m.release

/-- `mangoh_red_mux_pcm_select` -/
def pcmSelect (m : Mux PcmSelection) : PcmSelection → GpioAnswer → Ret × Mux PcmSelection :=
  m.select .onboard

/-- `mangoh_red_mux_pcm_release` -/
def pcmRelease (m : Mux PcmSelection) : PcmSelection → Ret × Mux PcmSelection := m.release

def sdioCall (m : Mux SdioSelection) : MuxCall SdioSelection → Ret × Mux SdioSelection
  | .select selection gpio => sdioSelect m selection gpio
  | .release selection => sdioRelease m selection

def pcmCall (m : Mux PcmSelection) : MuxCall PcmSelection → Ret × Mux PcmSelection
  | .select selection gpio => pcmSelect m selection gpio
  | .release selection => pcmRelease m selection

structure Board where
  sdio : Tracked SdioSelection
  pcm : Tracked PcmSelection

/-- `mangoh_red_mux_init`, with the answers to its two requests for a gpio. -/
def muxInit (sdioGpio pcmGpio : Ret) : Except Errno Board := do
  sdioGpio
  pcmGpio
  return ⟨⟨⟨.sdCardSlot, 0, true⟩, []⟩, ⟨⟨.onboard, 0, true⟩, []⟩⟩

/-- A call of one of the four functions. They hold a mutex each. -/
inductive Call
  | sdio (c : MuxCall SdioSelection)
  | pcm (c : MuxCall PcmSelection)

def Board.call (b : Board) : Call → Board
  | .sdio c => { b with sdio := b.sdio.call sdioCall c }
  | .pcm c => { b with pcm := b.pcm.call pcmCall c }

def boardMachine : Machine Board Call where
  Init b := ∃ sdioGpio pcmGpio, muxInit sdioGpio pcmGpio = .ok b
  Step b c b' := b' = b.call c

end MangOH.RedMux
