import MangOH.Mt7697q.ProcData
import MangOH.Mt7697q.RingSafety

/-! However the words of response frames arrive, every frame is handed on once, in order and with
its own header. -/
namespace MangOH.Mt7697q
open Interaction Framing Relation

/-- The response frames: two words of header, and the words that its length tells. -/
def response : Format Word RspHdr := ⟨rspHdrWords, RspHdr.overwrite ⟨0, 0, 0, 0⟩, RspHdr.bodyWords⟩

abbrev Response := Frame response

/-- What a receiver hands on for a frame. -/
def dispatched (f : Response) : Dispatch := (f.head, f.body)

/-- The header that waits for its body. -/
def RspHdr.pending (rsp : RspHdr) : Option RspHdr := if rsp.len = 0 then none else some rsp

variable {start n m k bound avail req : Nat} {s u : World} {frames : List Response}
  {before : List Dispatch} {c : Session} {α β : Type} {o : Outcome}

/-- The slave has written a part of the frames' words. -/
def Writes (frames : List Response) (s : World) : Prop := s.written <+: stream frames

theorem serve_written (s : World) (o : Request) : s.written <+: (serve s o).1.written := by
  cases o <;> first | exact List.prefix_rfl | exact List.prefix_append _ _

theorem produces_written {t : World} (h : Produces s t) : s.written <+: t.written := by
  cases h <;> first | exact List.prefix_rfl | exact List.prefix_append _ _

theorem writes_guard (frames : List Response) : (face .s2m).Guard (Writes frames) where
  serve s o h := (serve_written s o).trans h
  env _ _ hstep h := (produces_written hstep).trans h

@[simp] theorem World.after_qs (s : World) (qs : QueueData) (words : List Word) :
    (s.after qs words).qs = qs := rfl

/-- A part of the call that goes on with a value of which this holds. -/
abbrev Goes (frames : List Response) (p : Stage α) (Q : α → Session → World → Prop) (s : World) :
    Prop :=
  Ends (face .s2m) p (fun r u => Writes frames u → ∃ a c, r = (.ok a, c) ∧ Q a c u) s

theorem Goes.next {p : Stage α} {f : α → Session → Stage β} {Q : α → Session → World → Prop}
    {R : Except (Except Errno Nat) β × Session → World → Prop} (h : Goes frames p Q s)
    (hf : ∀ a c u, Writes frames u → Q a c u →
      Ends (face .s2m) (f a c) (fun r v => Writes frames v → R r v) u) :
    Ends (face .s2m) (p.next f) (fun r v => Writes frames v → R r v) s := by
  refine Safe.bind_guard (writes_guard frames) h ?_
  rintro _ u hopen ⟨a, c, rfl, hQ⟩
  exact hf a c u hopen hQ

theorem Heard.unread_lt (h : Heard start n m s) : m - n < 2 ^ 32 := by
  rw [← h.avail, getNumWords, bufDiff]
  split
  · exact Nat.mod_lt _ (by decide)
  · exact Nat.mod_lt _ (by decide)

/-- The words that the slave has certainly told the driver of. -/
def World.told (s : World) : Nat := if s.shared.wrOffset = s.slave.wr then s.written.length else 0

/-- The receiving end of a channel: the queue, the header kept in `qinfo`, and the frames handed
on. -/
structure Receiver where
  world : World
  rsp : RspHdr
  frames : List Dispatch

structure Receiver.Initial (r : Receiver) : Prop where
  world : r.world.Initial
  rsp : r.rsp.len = 0
  frames : r.frames = []

/-- The frames handed on are the first ones of the stream, each once, in order, with its own header
and body, and the reader is behind them or behind the next header. -/
def Receiver.Aligned (frames : List Response) (r : Receiver) : Prop :=
  ∃ k, r.frames = (frames.take k).map dispatched ∧
    At frames k r.rsp.pending r.world.received.length

variable {r r' : Receiver} {i : Interrupt}

theorem Heard.length_received (h : Heard start n m s) : s.received.length = n := by
  obtain ⟨a, ha, _, rfl, _⟩ := h
  exact ha.length_received

/-- Between two calls, as long as the slave writes the words of these frames. -/
def Between (frames : List Response) (start : Nat) (r : Receiver) : Prop :=
  Writes frames r.world → Listening start r.world ∧ r.Aligned frames

theorem Receiver.Initial.between (h : r.Initial) :
    Between frames r.world.shared.rdOffset r := by
  intro _
  refine ⟨h.world.idle .s2m, 0, h.frames, ?_⟩
  have hnone : r.rsp.pending = none := if_pos h.rsp
  rw [hnone, h.world.received]
  exact .start frames

end MangOH.Mt7697q
