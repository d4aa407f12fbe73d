import Mathlib.Data.List.TakeDrop
import Mathlib.Data.List.Infix

/-! Streams of frames, each a header of a fixed length and the body whose length the header tells,
and how far a receiver is in one. -/
namespace MangOH.Framing

variable {α H : Type}

/-- How long a header is, how it is read, and how long the body behind it is. -/
structure Format (α H : Type) where
  headerLength : Nat
  decode : List α → H
  bodyLength : H → Nat

/-- A frame has the body that its header tells. -/
structure Frame (fmt : Format α H) where
  header : List α
  body : List α
  header_length : header.length = fmt.headerLength
  body_length : body.length = fmt.bodyLength (fmt.decode header)

variable {fmt : Format α H} {frames : List (Frame fmt)} {written : List α} {h : H}
  {p : Option H} {i j k n pos : Nat}

def Frame.head (f : Frame fmt) : H := fmt.decode f.header

def Frame.units (f : Frame fmt) : List α := f.header ++ f.body

/-- What the sender writes for these frames. -/
def stream (frames : List (Frame fmt)) : List α := frames.flatMap Frame.units

/-- How many units the first frames have. -/
def offset (frames : List (Frame fmt)) (k : Nat) : Nat := (stream (frames.take k)).length

theorem Frame.length_units (f : Frame fmt) :
    f.units.length = fmt.headerLength + fmt.bodyLength f.head := by
  rw [Frame.units, List.length_append, f.header_length, f.body_length, Frame.head]

theorem stream_append (frames more : List (Frame fmt)) :
    stream (frames ++ more) = stream frames ++ stream more := by
  rw [stream, stream, stream, List.flatMap_append]

@[simp] theorem offset_zero (frames : List (Frame fmt)) : offset frames 0 = 0 := rfl

theorem offset_succ (hk : k < frames.length) :
    offset frames (k + 1) = offset frames k + frames[k].units.length := by
  rw [offset, offset, ← List.take_append_getElem hk, stream_append, List.length_append]
  simp [stream]

theorem offset_mono (frames : List (Frame fmt)) (hij : i ≤ j) :
    offset frames i ≤ offset frames j := by
  have hsplit : frames.take i ++ (frames.drop i).take (j - i) = frames.take j := by
    rw [← List.take_add, Nat.add_sub_cancel' hij]
  rw [offset, offset, ← hsplit, stream_append, List.length_append]
  exact Nat.le_add_right _ _

/-- The stream behind the first frames starts with the next one. -/
theorem drop_offset (hk : k < frames.length) :
    (stream frames).drop (offset frames k) =
      frames[k].header ++ frames[k].body ++ stream (frames.drop (k + 1)) := by
  have hsplit : stream frames =
      stream (frames.take k) ++ (frames[k].units ++ stream (frames.drop (k + 1))) := by
    conv => lhs; rw [← List.take_append_drop k frames, List.drop_eq_getElem_cons hk]
    rw [stream_append]
    rfl
  rw [hsplit, offset, List.drop_left]
  rfl

/-- A receiver that has handed on the first `k` frames is in front of the next one, or behind its
header, which it keeps. -/
inductive At (frames : List (Frame fmt)) (k : Nat) : Option H → Nat → Prop
  | between (hk : k ≤ frames.length) : At frames k none (offset frames k)
  | behindHeader (hk : k < frames.length) :
      At frames k (some frames[k].head) (offset frames k + fmt.headerLength)

theorem At.start (frames : List (Frame fmt)) : At frames 0 none 0 :=
  .between (Nat.zero_le _)

theorem At.le_length (ha : At frames k p pos) : k ≤ frames.length := by
  cases ha with
  | between hk => exact hk
  | behindHeader hk => exact Nat.le_of_lt hk

/-- What a receiver needs next. -/
def need (fmt : Format α H) : Option H → Nat
  | none => fmt.headerLength
  | some h => fmt.bodyLength h

/-- What the receiver reads of the words that have been written so far is what the stream has
there. -/
theorem take_drop_prefixed (hw : written <+: stream frames) (hn : pos + n ≤ written.length) :
    (written.drop pos).take n = ((stream frames).drop pos).take n := by
  obtain ⟨rest, hrest⟩ := hw
  rw [← hrest, List.drop_append_of_le_length (by omega),
    List.take_append_of_le_length (by rw [List.length_drop]; omega)]

theorem At.read_header (ha : At frames k none pos) (hpos : 0 < fmt.headerLength)
    (hw : written <+: stream frames) (hn : pos + fmt.headerLength ≤ written.length) :
    ∃ hk : k < frames.length,
      (written.drop pos).take fmt.headerLength = frames[k].header ∧
      At frames k (some frames[k].head) (pos + fmt.headerLength) := by
  cases ha with
  | between hle =>
    obtain hk | rfl := Nat.lt_or_eq_of_le hle
    · refine ⟨hk, ?_, .behindHeader hk⟩
      rw [take_drop_prefixed hw hn, drop_offset hk, List.append_assoc,
        List.take_append_of_le_length (Nat.le_of_eq frames[k].header_length.symm),
        List.take_of_length_le (Nat.le_of_eq frames[k].header_length)]
    · have hlen := hw.length_le
      rw [offset, List.take_length] at hn
      omega

/-- Behind the body of a frame the next one starts. -/
theorem At.behind_body (ha : At frames k (some h) pos) :
    ∃ hk : k < frames.length, h = frames[k].head ∧
      At frames (k + 1) none (pos + fmt.bodyLength h) := by
  cases ha with
  | behindHeader hk =>
    refine ⟨hk, rfl, ?_⟩
    have hend : offset frames k + fmt.headerLength + fmt.bodyLength frames[k].head =
        offset frames (k + 1) := by
      rw [offset_succ hk, Frame.length_units, Nat.add_assoc]
    rw [hend]
    exact .between hk

theorem At.read_body (ha : At frames k (some h) pos) (hk : k < frames.length)
    (hw : written <+: stream frames) (hn : pos + fmt.bodyLength h ≤ written.length) :
    (written.drop pos).take (fmt.bodyLength h) = frames[k].body := by
  cases ha with
  | behindHeader =>
    have hbody : frames[k].body.length = fmt.bodyLength frames[k].head := frames[k].body_length
    rw [take_drop_prefixed hw hn, ← List.drop_drop, drop_offset hk, List.append_assoc,
      ← frames[k].header_length, List.drop_left,
      List.take_append_of_le_length (Nat.le_of_eq hbody.symm),
      List.take_of_length_le (Nat.le_of_eq hbody)]

/-- What is there of a body that has not arrived whole. -/
theorem At.cut_body (ha : At frames k (some h) pos) (hk : k < frames.length)
    (hw : written <+: stream frames) (hn : written.length ≤ pos + fmt.bodyLength h) :
    written.drop pos <+: frames[k].body := by
  cases ha with
  | behindHeader =>
    have hbody : frames[k].body.length = fmt.bodyLength frames[k].head := frames[k].body_length
    have hstream : (stream frames).drop (offset frames k + fmt.headerLength) =
        frames[k].body ++ stream (frames.drop (k + 1)) := by
      rw [← List.drop_drop, drop_offset hk, List.append_assoc, ← frames[k].header_length,
        List.drop_left]
    refine List.prefix_of_prefix_length_le (hstream ▸ hw.drop _) (List.prefix_append _ _) ?_
    rw [List.length_drop]
    omega

/-- A receiver that lacks units of what it needs next has handed on every frame that ends among
the first `n`. -/
theorem At.complete (ha : At frames k p pos) (hn : n < pos + need fmt p)
    (hj : j ≤ frames.length) (hend : offset frames j ≤ n) : j ≤ k := by
  by_contra hlt
  have hle : offset frames (k + 1) ≤ offset frames j := offset_mono frames (by omega)
  cases ha with
  | between hk =>
    obtain hk | rfl := Nat.lt_or_eq_of_le hk
    · rw [offset_succ hk, Frame.length_units] at hle
      simp only [need] at hn
      omega
    · omega
  | behindHeader hk =>
    rw [offset_succ hk, Frame.length_units] at hle
    simp only [need] at hn
    omega

end MangOH.Framing
