import MangOH.Lib.Framing
import MangOH.Lib.Views
import MangOH.Mt7697q.Handlers
import MangOH.Mt7697q.ReadSafety

/-! The receive loop of a queue: it reads a header, waits for the body, and hands the frame on. -/
namespace MangOH.Mt7697q
open Interaction Framing

/-- The return values of the queue's functions are `int`; the transport's `read` gives them back
as a `size_t`. -/
def Errno.code : Errno → Nat
  | .again => 11
  | .inval => 22
  | .io => 5
  | .nomem => 12

def toSize : Except Errno Nat → Nat
  | .ok n => n
  | .error e => 2 ^ 32 - e.code

/-- A frame that was handed on, with the words that its handler read. -/
abbrev Dispatch := RspHdr × List Word

/-- What one call works on: the host's copy of the control words and the header that `qinfo`
keeps; and what it has read and handed on so far. -/
structure Session where
  qs : QueueData
  rsp : RspHdr
  taken : List Word
  frames : List Dispatch

/-- How a part of the call ends: the call goes on with a value, or returns. -/
abbrev Stage (α : Type) := Program Request Answer (Except (Except Errno Nat) α × Session)

def rspHdrWords : Nat := lenToWord sizeofRspHdr

/-- The words of a frame's body, as the loop counts them. -/
def RspHdr.req (rsp : RspHdr) : Nat := lenToWord (sub32 rsp.len sizeofRspHdr)

/-- The header that a read wrote over; a read that fails may have written a part. -/
def RspHdr.overwrite (rsp : RspHdr) : List Word → RspHdr
  | [] => rsp
  | [cmd] => { RspHdr.ofWords cmd 0 with result := rsp.result }
  | cmd :: result :: _ => RspHdr.ofWords cmd result

/-- A handler whose reads are those of the queue. -/
def serveHandler {α : Type} : Rx α → QueueData → Program Request Answer (α × QueueData × List Word)
  | .done a, qs => .done (a, qs, [])
  | .ask num next, qs => (read qs num).bind fun r =>
    (serveHandler (next (toSize r.ret)) r.qs).bind fun (a, qs, words) =>
      .done (a, qs, r.buf ++ words)

/-- The header, unless an earlier round or call has read it. -/
def readHeader (c : Session) (avail req : Nat) : Stage (Nat × Nat) :=
  if c.rsp.len = 0 then
    (read c.qs req).bind fun r =>
      let c := { c with qs := r.qs, rsp := c.rsp.overwrite r.buf, taken := c.taken ++ r.buf }
      match r.ret with
      | .error e => .done (.error (.error e), c)
      | .ok ret =>
        if ret ≠ req then .done (.error (.ok ret), c)
        else .done (.ok (sub32 avail rspHdrWords, c.rsp.req), c)
  else .done (.ok (avail, req), c)

/-- A look at the slave's write offset when the words known of are too few. -/
def lookForMore (c : Session) (avail req : Nat) : Stage Nat :=
  if avail < req then
    (pullWrPtr c.qs).bind fun
      | .error e => .done (.error (.error e), c)
      | .ok qs => .done (.ok (getNumWords qs), { c with qs := qs })
  else .done (.ok avail, c)

/-- The frame goes to the queue itself or to `rx_fcn`, whose failure is only reported. -/
def dispatch (o : Outcome) (c : Session) : Stage Unit :=
  if c.rsp.grp = cmdGrpQueue then
    let c := { c with frames := c.frames ++ [(c.rsp, [])] }
    match procQueueRsp c.rsp with
    | .error e => .done (.error (.error e), c)
    | .ok () => .done (.ok (), c)
  else
    (serveHandler (proc80211cmd c.rsp o) c.qs).bind fun (_, qs, words) =>
      .done (.ok (), { c with qs := qs, taken := c.taken ++ words,
                              frames := c.frames ++ [(c.rsp, words)] })

/-- Tell the slave how far the driver has read. -/
def pushRead (c : Session) : Stage Unit :=
  (pushRdPtr c.qs).bind fun
    | .error e => .done (.error (.error e), c)
    | .ok () => .done (.ok (), c)

/-- The next part of the call, unless it has returned. -/
def Stage.next {α β : Type} (p : Stage α) (f : α → Session → Stage β) : Stage β :=
  p.bind fun
    | (.error ret, c) => .done (.error ret, c)
    | (.ok a, c) => f a c

/-- One round of the loop: a frame, or a return when its body has not arrived. -/
def procFrame (o : Outcome) (c : Session) (avail req : Nat) : Stage (Nat × Nat) :=
  (readHeader c avail req).next fun (avail, req) c =>
    (lookForMore c avail req).next fun avail c =>
      if avail < req then .done (.error (.ok 0), c)
      else (dispatch o c).next fun _ c =>
        let c := { c with rsp := { c.rsp with len := 0 } }
        let avail := sub32 avail req
        let req := rspHdrWords
        (lookForMore c avail req).next fun avail c =>
          (pushRead c).next fun _ c => .done (.ok (avail, req), c)

/-- The loop; it stands still when it has made as many rounds as it is given. -/
def procLoop (outcome : Nat → Outcome) : Nat → Session → Nat → Nat → Stage Unit
  | 0, c, _, _ => .done (.ok (), c)
  | rounds + 1, c, avail, req =>
    if req ≤ avail then
      (procFrame (outcome c.frames.length) c avail req).next fun (avail, req) c =>
        procLoop outcome rounds c avail req
    else .done (.error (.ok 0), c)

/-- `mt7697q_proc_data`, for as many rounds as it is given. -/
def procData (outcome : Nat → Outcome) (rounds : Nat) (qs : QueueData) (rsp : RspHdr) :
    Stage Unit :=
  (pullWrPtr qs).bind fun
    | .error e => .done (.error (.error e), ⟨qs, rsp, [], []⟩)
    | .ok qs => procLoop outcome rounds ⟨qs, rsp, [], []⟩ (getNumWords qs)
      (if rsp.len > 0 then rsp.req else rspHdrWords)

end MangOH.Mt7697q
