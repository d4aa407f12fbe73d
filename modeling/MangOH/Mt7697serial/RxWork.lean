import Mathlib.Algebra.Order.Ring.Nat
import MangOH.Lib.Framing
import MangOH.Lib.Views
import MangOH.Mt7697q.Handlers

/-! The receive task of the serial transport: whatever parts the bytes come in, every frame is
handed on once, in order and with its own header. -/
namespace MangOH.Mt7697serial
open Interaction Framing
open Mt7697q (Outcome Rx Errno asked proc80211cmd sizeofRspHdr)

/-- What the receive task asks of the serial device and of the closing task. -/
inductive LineRequest
  | poll
  | kernelRead (count : Nat)
  | close
deriving DecidableEq

/-- A read of no bytes is the end of the file. -/
def LineAnswer : LineRequest → Type
  | .poll => Except Errno Unit
  | .kernelRead _ => Except Errno (List UInt8)
  | .close => Bool

abbrev Serial (α : Type) := Program LineRequest LineAnswer α

/-- The bytes of `words` words. -/
def bytes (words : Nat) : Nat := words * 4

/-- The loop of `mt7697_uart_read`; every round reads a byte at least, so the rounds are enough. -/
def readLoop : Nat → Nat → Serial (Bool × List UInt8)
  | 0, _ => .done (false, [])
  | rounds + 1, count => .ask (.kernelRead count) fun
    | .error _ => .done (false, [])
    | .ok [] => .done (false, [])
    | .ok (b :: bs) =>
      if count - (b :: bs).length = 0 then .done (true, b :: bs)
      else (readLoop rounds (count - (b :: bs).length)).bind fun (all, more) =>
        .done (all, b :: bs ++ more)

/-- `mt7697_uart_read` on an open device: all the words or none, and the bytes that were taken. -/
def uartRead (len : Nat) : Serial (Nat × List UInt8) :=
  (readLoop (bytes len + 1) (bytes len)).bind fun (all, bs) => .done (if all then len else 0, bs)

/-- A word of four bytes, as the host stores it. -/
def wordOf : List UInt8 → UInt32
  | [] => 0
  | b :: bs => b.toUInt32 + 256 * wordOf bs

def decodeRsp (bs : List UInt8) : Mt7697q.RspHdr :=
  .ofWords (wordOf (bs.take 4)) (wordOf (bs.drop 4))

/-- A frame that was handed on, with the bytes that its handler took. -/
abbrev SerialDispatch := Mt7697q.RspHdr × List UInt8

/-- A handler whose reads are those of the serial device. -/
def serveHandler {α : Type} : Rx α → Serial (α × List UInt8)
  | .done a => .done (a, [])
  | .ask num next => (uartRead num).bind fun (ret, bs) =>
    (serveHandler (next ret)).bind fun (a, more) => .done (a, bs ++ more)

/-- Why the receive task ended, if it has. -/
inductive RxEnd
  | poll
  | header
  | closed
  | running
deriving DecidableEq, Repr

/-- `mt7697_uart_rx_work`, for as many frames as it is given. -/
def rxWork (outcome : Nat → Outcome) :
    Nat → List SerialDispatch → Serial (RxEnd × List SerialDispatch)
  | 0, frames => .done (.running, frames)
  | rounds + 1, frames => .ask .poll fun
    | .error _ => .done (.poll, frames)
    | .ok () => (uartRead (Mt7697q.lenToWord sizeofRspHdr)).bind fun (ret, bs) =>
      if ret ≠ Mt7697q.lenToWord sizeofRspHdr then .done (.header, frames)
      else
        let rsp := decodeRsp bs
        if rsp.grp = Mt7697q.cmdGrpUart then .ask .close fun (close : Bool) =>
          if close then .done (.closed, frames ++ [(rsp, [])])
          else rxWork outcome rounds (frames ++ [(rsp, [])])
        else (serveHandler (proc80211cmd rsp (outcome frames.length))).bind fun (_, bs) =>
          rxWork outcome rounds (frames ++ [(rsp, bs)])

/-- The bytes that the peer sends before it hangs up, and those of them that were read. The device
gives as many at a time as it likes, and may fail. -/
structure Line where
  rest : List UInt8
  taken : List UInt8
  offer : Nat
  fault : Option Errno
  ready : Except Errno Unit
  close : Bool
  failed : Bool

def serveLine (s : Line) : (o : LineRequest) → Line × LineAnswer o
  | .poll => (s, s.ready)
  | .close => (s, s.close)
  | .kernelRead count =>
    match s.fault with
    | some e => ({ s with failed := true }, .error e)
    | none =>
      let num := min count (s.offer + 1)
      ({ s with rest := s.rest.drop num, taken := s.taken ++ s.rest.take num },
        .ok (s.rest.take num))

/-- Anything but the bytes and the record of a failure can change at any time. -/
def line : Interface Line LineRequest LineAnswer where
  serve := serveLine
  env s t := t.rest = s.rest ∧ t.taken = s.taken ∧ t.failed = s.failed

/-- No read of the device has failed. -/
def Line.Sound (s : Line) : Prop := s.failed = false

/-- The first `n` bytes of those that the peer sends were read. -/
def Line.Took (total : List UInt8) (n : Nat) (s : Line) : Prop :=
  s.taken ++ s.rest = total ∧ s.taken.length = n

variable {s u : Line} {total : List UInt8} {n k count len rounds : Nat} {α β : Type}

theorem sound_guard : line.Guard Line.Sound where
  serve s o h := by
    cases o with
    | poll => exact h
    | close => exact h
    | kernelRead count =>
      unfold line serveLine at h
      cases hfault : s.fault with
      | none =>
        simp only [hfault] at h
        exact h
      | some e =>
        simp only [hfault, Line.Sound] at h
        cases h
  env _ _ hstep h := hstep.2.2.symm.trans h

theorem stable_took : line.Stable (Line.Took total n) := by
  rintro s t ⟨htotal, hn⟩ ⟨hrest, htaken, _⟩
  rw [← hrest, ← htaken] at htotal
  rw [← htaken] at hn
  exact ⟨htotal, hn⟩

theorem Line.Took.rest (h : s.Took total n) : s.rest = total.drop n := by
  rw [← h.1, ← h.2, List.drop_left]

theorem took_done {a : α} {Q : α → Line → Prop} (hs : s.Took total n)
    (h : ∀ t, t.Took total n → Q a t) : Ends line (.done a) (fun a t => t.Sound → Q a t) s :=
  safe_done stable_took hs fun t ht => ⟨trivial, fun _ => h t ht⟩

theorem serve_fault {e : Errno} (h : s.fault = some e) :
    line.serve s (.kernelRead count) = ({ s with failed := true }, .error e) := by
  simp only [line, serveLine, h]

/-- What the device gives, and where that leaves the reader. -/
theorem serve_read (count : Nat) (hs : s.Took total n) (h : s.fault = none) :
    ∃ bs t, line.serve s (.kernelRead count) = (t, .ok bs) ∧ t.Took total (n + bs.length) ∧
      bs = (total.drop n).take bs.length ∧
      bs.length = min (min count (s.offer + 1)) (total.length - n) := by
  have hlen : (s.rest.take (min count (s.offer + 1))).length =
      min (min count (s.offer + 1)) (total.length - n) := by
    rw [List.length_take, hs.rest, List.length_drop]
  refine ⟨s.rest.take (min count (s.offer + 1)), _, by simp only [line, serveLine, h]; rfl,
    ⟨?_, ?_⟩, ?_, hlen⟩
  · rw [List.append_assoc, List.take_append_drop]
    exact hs.1
  · rw [List.length_append, hs.2]
  · rw [hs.rest]
    exact List.prefix_iff_eq_take.mp (List.take_prefix _ _)

/-- A read gives the next bytes, all that it wants if there are so many. -/
theorem readLoop_took (hs : s.Took total n) (hrounds : count < rounds) :
    Ends line (readLoop rounds count) (fun r u => u.Sound → u.Took total (n + r.2.length) ∧
      r.2 = (total.drop n).take count ∧
      (r.1 = true ↔ 0 < count ∧ n + count ≤ total.length)) s := by
  induction rounds generalizing count n s with
  | zero => omega
  | succ rounds ih =>
    refine safe_ask stable_took hs fun t ht => ⟨trivial, ?_⟩
    cases hfault : t.fault with
    | some e =>
      rw [serve_fault hfault]
      exact ends_closed sound_guard (by simp [Line.Sound])
    | none =>
      obtain ⟨bs, t', hserve, ht', hbs, hlen⟩ := serve_read count ht hfault
      rw [hserve]
      cases bs with
      | nil =>
        rw [List.length_nil] at hlen
        refine took_done ht' fun v hv => ⟨hv, ?_, by simp; omega⟩
        rw [eq_comm, List.take_eq_nil_iff, List.drop_eq_nil_iff]
        omega
      | cons b bs =>
        simp only
        split
        case isTrue hall =>
          have hcount : (b :: bs).length = count := by omega
          rw [hcount] at hbs
          refine took_done ht' fun v hv => ⟨hv, hbs, ?_⟩
          simp only [List.length_cons, true_iff] at hlen hcount ⊢
          omega
        case isFalse hmore =>
          have hless : count - (b :: bs).length < rounds := by
            simp only [List.length_cons]
            omega
          refine Safe.bind_guard sound_guard (ih ht' hless) ?_
          rintro ⟨all, more⟩ v hv ⟨htook, hmore', hall⟩
          rw [Nat.add_assoc, ← List.length_append] at htook
          refine took_done htook fun w hw => ⟨hw, ?_, ?_⟩
          · have hsplit : count = (b :: bs).length + (count - (b :: bs).length) := by omega
            simp only at hmore' ⊢
            rw [hmore', ← List.drop_drop]
            conv => rhs; rw [hsplit, List.take_add, ← hbs]
          · simp only at hall ⊢
            rw [hall]
            omega

theorem uartRead_took (hs : s.Took total n) :
    Ends line (uartRead len) (fun r u => u.Sound → u.Took total (n + r.2.length) ∧
      r.2 = (total.drop n).take (bytes len) ∧
      r.1 = if n + bytes len ≤ total.length then len else 0) s := by
  refine Safe.bind_guard sound_guard (readLoop_took hs (Nat.lt_succ_self _)) ?_
  rintro ⟨all, bs⟩ u hu ⟨htook, hbs, hall⟩
  refine took_done htook fun v hv => ⟨hv, hbs, ?_⟩
  have hbytes : bytes len = len * 4 := rfl
  simp only [hall]
  by_cases hfit : n + bytes len ≤ total.length
  · rw [if_pos hfit]
    split <;> omega
  · rw [if_neg hfit, if_neg fun h => hfit h.2]

/-- A handler takes the bytes of the words that it asks for, or all that are left. -/
theorem serveHandler_took {p : Rx α} (hs : s.Took total n) :
    Ends line (serveHandler p) (fun r u => u.Sound → u.Took total (n + r.2.length) ∧
      r.2 = (total.drop n).take (bytes (asked p))) s := by
  induction p generalizing n s with
  | done a => exact took_done hs fun v hv => ⟨hv, by simp [asked, bytes]⟩
  | ask num next ih =>
    refine Safe.bind_guard sound_guard (uartRead_took hs) ?_
    rintro ⟨ret, bs⟩ u hu ⟨htook, hbs, hret⟩
    refine Safe.bind_guard sound_guard (ih ret htook) ?_
    rintro ⟨a, more⟩ v hv ⟨htook', hmore⟩
    rw [Nat.add_assoc, ← List.length_append] at htook'
    refine took_done htook' fun w hw => ⟨hw, ?_⟩
    simp only at hbs hret hmore ⊢
    have hlen : bs.length = min (bytes num) (total.length - n) := by
      rw [hbs, List.length_take, List.length_drop]
    by_cases hfull : n + bytes num ≤ total.length
    · rw [if_pos hfull] at hret
      have hsum : bytes (num + asked (next num)) = bytes num + bytes (asked (next num)) :=
        Nat.add_mul _ _ _
      rw [hmore, hret, ← List.drop_drop, show bs.length = bytes num by omega, asked, hsum,
        List.take_add, hbs]
    · have hrest : total.drop (n + bs.length) = [] := List.drop_eq_nil_of_le (by omega)
      rw [hmore, hrest, List.take_nil, List.append_nil, hbs]
      rw [List.take_of_length_le (by rw [List.length_drop]; omega),
        List.take_of_length_le (by simp only [List.length_drop, asked, bytes] at *; omega)]

/-- The response frames over the serial line. -/
def serialResponse : Format UInt8 Mt7697q.RspHdr :=
  ⟨sizeofRspHdr, decodeRsp, fun rsp => bytes rsp.bodyWords⟩

abbrev SerialFrame := Frame serialResponse

/-- The frames that the task can serve: no header is longer than its frame, the transport's own
have no body, and the handler reads all of the body. -/
def SerialServed (f : SerialFrame) : Prop :=
  sizeofRspHdr ≤ f.head.len ∧
    if f.head.grp = Mt7697q.cmdGrpUart then f.head.bodyWords = 0 else f.head.Fits true

/-- What the task hands on for a frame. -/
def handedOn (f : SerialFrame) : SerialDispatch := (f.head, f.body)

/-- The first frames were handed on, each once, in order, with its own header and body; where the
peer hangs up within a frame, its handler is told so. -/
inductive Received (frames : List SerialFrame) (total : List UInt8) :
    List SerialDispatch → Nat → Prop
  | whole (k n : Nat) (hplace : At frames k none n) :
      Received frames total ((frames.take k).map handedOn) n
  | cut (k : Nat) (hk : k < frames.length) (part : List UInt8) (hpart : part <+: frames[k].body)
      (hless : total.length < offset frames (k + 1)) :
      Received frames total ((frames.take k).map handedOn ++ [(frames[k].head, part)]) total.length

variable {frames : List SerialFrame} {log : List SerialDispatch} {outcome : Nat → Outcome}

/-- A task that can read no header has handed on every whole frame. -/
theorem Received.complete {j : Nat} (h : Received frames total log n)
    (hless : total.length < n + sizeofRspHdr) (hj : j ≤ frames.length)
    (hend : offset frames j ≤ total.length) : j ≤ log.length := by
  cases h with
  | whole k _ hplace =>
    have hk := hplace.le_length
    rw [List.length_map, List.length_take, Nat.min_eq_left hk]
    exact hplace.complete hless hj hend
  | cut k hk part hpart hcut =>
    rw [List.length_append, List.length_map, List.length_take, Nat.min_eq_left (Nat.le_of_lt hk)]
    by_contra hlt
    have := offset_mono frames (show k + 1 ≤ j by simp at hlt; omega)
    omega

theorem Received.length_le (h : Received frames total log n) : log.length ≤ frames.length := by
  cases h with
  | whole k _ hplace =>
    rw [List.length_map, List.length_take]
    omega
  | cut k hk part _ _ =>
    rw [List.length_append, List.length_map, List.length_take, List.length_singleton]
    omega

theorem decode_len_lt (f : SerialFrame) : f.head.len < 2 ^ 16 := Nat.mod_lt _ (by decide)

/-- The header that was read is that of the next frame; its handler then gets the body, or what is
left of it. -/
theorem Received.frame {bs : List UInt8} (h : Received frames total log n) (hn : n ≤ total.length)
    (hpeer : total <+: stream frames) (hfull : n + sizeofRspHdr ≤ total.length)
    (hbs : bs = (total.drop n).take sizeofRspHdr) :
    ∃ k, ∃ hk : k < frames.length, log = (frames.take k).map handedOn ∧
      decodeRsp bs = frames[k].head ∧
      ∀ part, part = (total.drop (n + sizeofRspHdr)).take (bytes frames[k].head.bodyWords) →
        Received frames total (log ++ [(frames[k].head, part)])
          (n + sizeofRspHdr + part.length) := by
  cases h with
  | cut => simp only [sizeofRspHdr] at hfull; omega
  | whole k _ hplace =>
    obtain ⟨hk, hheader, hbehind⟩ := hplace.read_header (by decide) hpeer hfull
    change (total.drop n).take sizeofRspHdr = _ at hheader
    refine ⟨k, hk, rfl, by rw [hbs, hheader]; rfl, ?_⟩
    rintro part rfl
    obtain ⟨_, _, hnext⟩ := hbehind.behind_body
    by_cases hbody : n + sizeofRspHdr + bytes frames[k].head.bodyWords ≤ total.length
    · have hwhole := hbehind.read_body hk hpeer hbody
      have hlog : (frames.take k).map handedOn ++ [(frames[k].head, frames[k].body)] =
          (frames.take (k + 1)).map handedOn := by
        rw [← List.take_append_getElem hk, List.map_append]
        rfl
      change (total.drop (n + sizeofRspHdr)).take (bytes frames[k].head.bodyWords) = _ at hwhole
      rw [hwhole, hlog, frames[k].body_length]
      exact .whole (k + 1) _ hnext
    · have hend : n + sizeofRspHdr + bytes frames[k].head.bodyWords = offset frames (k + 1) := by
        rw [offset_succ hk, Frame.length_units]
        cases hplace
        exact Nat.add_assoc _ _ _
      have hpart : (total.drop (n + sizeofRspHdr)).take (bytes frames[k].head.bodyWords) =
          total.drop (n + sizeofRspHdr) :=
        List.take_of_length_le (by rw [List.length_drop]; omega)
      have hprefix : total.drop (n + sizeofRspHdr) <+: frames[k].body :=
        hbehind.cut_body hk hpeer (Nat.le_of_not_le hbody)
      have hcut : Received frames total _ total.length := .cut k hk _ hprefix (by omega)
      rw [hpart, List.length_drop, Nat.add_sub_cancel' hfull]
      exact hcut

/-- Whatever parts the bytes come in, the task hands on the frames in order; when it finds no more
header, it has handed on all that were whole. -/
theorem rxWork_received (hserved : ∀ f ∈ frames, SerialServed f)
    (ho : ∀ i, (outcome i).kzalloc = true) (hpeer : total <+: stream frames)
    (hs : s.Took total n) (hlog : Received frames total log n) :
    Ends line (rxWork outcome rounds log) (fun r u => u.Sound →
      (∃ n, Received frames total r.2 n) ∧
        (r.1 = .header → ∀ j ≤ frames.length, offset frames j ≤ total.length → j ≤ r.2.length) ∧
        (frames.length < log.length + rounds → r.1 ≠ .running)) s := by
  induction rounds generalizing log n s with
  | zero =>
    refine took_done hs fun v hv => ⟨⟨n, hlog⟩, by simp, fun h => ?_⟩
    have := hlog.length_le
    omega
  | succ rounds ih =>
    refine safe_ask stable_took hs fun t ht => ⟨trivial, ?_⟩
    change Ends line _ _ t
    cases hready : (line.serve t .poll).2 with
    | error e => exact took_done ht fun v hv => ⟨⟨n, hlog⟩, by simp, by simp⟩
    | ok =>
      refine Safe.bind_guard sound_guard (uartRead_took ht) ?_
      rintro ⟨ret, bs⟩ u hu ⟨htook, hbs, hret⟩
      change bs = (total.drop n).take sizeofRspHdr at hbs
      change ret = if n + sizeofRspHdr ≤ total.length then _ else 0 at hret
      have hn : n ≤ total.length := by
        rw [← ht.1, ← ht.2, List.length_append]
        omega
      by_cases hfull : n + sizeofRspHdr ≤ total.length
      · rw [if_pos hfull] at hret
        obtain ⟨k, hk, hfirst, hheader, hnext⟩ := hlog.frame hn hpeer hfull hbs
        obtain ⟨hlen, hfits⟩ := hserved _ (List.getElem_mem hk)
        have hlen : bs.length = sizeofRspHdr := by
          rw [hbs, List.length_take, List.length_drop]
          omega
        rw [hlen] at htook
        simp only [hret, ne_eq, not_true_eq_false, if_false, hheader]
        split
        case isTrue huart =>
          rw [if_pos huart] at hfits
          have hlog' := hnext [] (by rw [hfits]; rfl)
          refine safe_ask stable_took htook fun v hv => ⟨trivial, ?_⟩
          change Ends line _ _ v
          split
          case isTrue => exact took_done hv fun w hw => ⟨⟨_, hlog'⟩, by simp, by simp⟩
          case isFalse =>
            refine (ih hv hlog').mono fun r w hr hw => ?_
            obtain ⟨hreceived, hall, hrunning⟩ := hr hw
            refine ⟨hreceived, hall, fun h => hrunning ?_⟩
            rw [List.length_append, List.length_singleton]
            omega
        case isFalse hother =>
          rw [if_neg hother, ← ho log.length] at hfits
          have hasked :=
            (Mt7697q.asked_eq_bodyWords_iff (decode_len_lt _) (outcome log.length)).mpr hfits
          refine Safe.bind_guard sound_guard (serveHandler_took htook) ?_
          rintro ⟨ret', part⟩ v hv ⟨htook', hpart⟩
          simp only [hasked] at hpart htook' ⊢
          refine (ih htook' (hnext part hpart)).mono fun r w hr hw => ?_
          obtain ⟨hreceived, hall, hrunning⟩ := hr hw
          refine ⟨hreceived, hall, fun h => hrunning ?_⟩
          rw [List.length_append, List.length_singleton]
          omega
      · rw [if_neg hfull] at hret
        subst hret
        exact took_done htook fun v hv =>
          ⟨⟨n, hlog⟩, fun _ j hj hend => hlog.complete (by omega) hj hend, by simp⟩

/-- A receive task on a line that was not read yet. -/
theorem serial_frames (frames : List SerialFrame) (hserved : ∀ f ∈ frames, SerialServed f)
    (outcome : Nat → Outcome) (ho : ∀ i, (outcome i).kzalloc = true) (rounds : Nat) (s : Line)
    (hs : s.taken = []) (hpeer : s.rest <+: stream frames) :
    Ends line (rxWork outcome rounds []) (fun r u => u.failed = false →
      (∃ n, Received frames s.rest r.2 n) ∧
        (r.1 = .header → ∀ j ≤ frames.length, offset frames j ≤ s.rest.length → j ≤ r.2.length) ∧
        (frames.length < rounds → r.1 ≠ .running)) s := by
  have htook : s.Took s.rest 0 := ⟨by rw [hs, List.nil_append], by rw [hs, List.length_nil]⟩
  have hlog : Received frames s.rest [] 0 := .whole 0 0 (.start frames)
  refine (rxWork_received hserved ho hpeer htook hlog).mono ?_
  intro r u hr hu
  obtain ⟨hreceived, hall, hrunning⟩ := hr hu
  exact ⟨hreceived, hall, fun h => hrunning (by rw [List.length_nil]; omega)⟩

/-- The response to a shutdown and a listen interval, which the peer cuts off by a hang-up. -/
def serialTwo : List SerialFrame :=
  [⟨[8, 0, 1, 1, 0, 0, 0, 0], [], rfl, rfl⟩, ⟨[12, 0, 2, 11, 0, 0, 0, 0], [100, 0, 0, 0], rfl, rfl⟩]

theorem serial_frames_two : Ends line (rxWork (fun _ => ⟨true, .ok ()⟩) 3 []) (fun r u =>
    u.failed = false →
      (∃ n, Received serialTwo (stream serialTwo) r.2 n) ∧
        (r.1 = .header → ∀ j ≤ 2, offset serialTwo j ≤ 20 → j ≤ r.2.length) ∧
        (2 < 3 → r.1 ≠ .running))
    ⟨stream serialTwo, [], 0, none, .ok (), false, false⟩ := by
  refine serial_frames serialTwo ?_ _ (fun _ => rfl) 3 _ rfl List.prefix_rfl
  simp only [serialTwo, List.forall_mem_cons, List.not_mem_nil, false_implies, implies_true,
    and_true]
  constructor
  · refine ⟨by decide, ?_⟩
    rw [if_pos (by decide)]
    rfl
  · refine ⟨by decide, ?_⟩
    rw [if_neg (by decide), Mt7697q.RspHdr.Fits, if_neg (by decide), if_neg (by decide)]
    exact .inr rfl

end MangOH.Mt7697serial
