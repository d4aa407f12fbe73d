import Mathlib.Init

/-! Programs that read a state, print and may stop before they are done. -/
namespace MangOH.Transcript

variable {σ ω ε α β : Type}

/-- A program with its state and what it has printed so far. -/
abbrev Program (σ ω ε : Type) := ExceptT ε (StateM (σ × List ω))

def say (line : ω) : Program σ ω ε Unit := fun s => (.ok (), s.1, s.2 ++ [line])

/-- The program's answer to the state it reads, and the state afterwards. -/
def ask (read : σ → Except ε (σ × α)) : Program σ ω ε α := fun s =>
  match read s.1 with
  | .ok (state, a) => (.ok a, state, s.2)
  | .error e => (.error e, s)

/-- From this state the program prints these lines and ends so, and the state is as it was. -/
def Prints (t : Program σ ω ε α) (s : σ) (lines : List ω) (result : Except ε α) : Prop :=
  ∀ before, t (s, before) = (result, s, before ++ lines)

variable {t : Program σ ω ε α} {f : α → Program σ ω ε β} {s : σ} {a : α} {b : β} {e : ε}
  {lines lines' : List ω} {result : Except ε α} {result' : Except ε β}

theorem prints_pure (a : α) : Prints (pure a : Program σ ω ε α) s [] (.ok a) := by
  intro before
  rw [List.append_nil]
  rfl

theorem prints_throw (e : ε) : Prints (throw e : Program σ ω ε α) s [] (.error e) := by
  intro before
  rw [List.append_nil]
  rfl

theorem prints_say (line : ω) : Prints (say line : Program σ ω ε Unit) s [line] (.ok ()) :=
  fun _ => rfl

theorem prints_ask {read : σ → Except ε (σ × α)} (hread : read s = .ok (s, a)) :
    Prints (ask read : Program σ ω ε α) s [] (.ok a) := by
  intro before
  unfold ask
  rw [List.append_nil, hread]

theorem Prints.bind (ht : Prints t s lines (.ok a)) (hf : Prints (f a) s lines' result') :
    Prints (t >>= f) s (lines ++ lines') result' := by
  intro before
  have hbind : (t >>= f) (s, before) = f a (s, before ++ lines) := by
    show (ExceptT.bind t f) (s, before) = _
    unfold ExceptT.bind ExceptT.mk
    show StateT.bind t (ExceptT.bindCont f) (s, before) = _
    unfold StateT.bind
    rw [ht before]
    rfl
  rw [hbind, hf, List.append_assoc]

/-- Behind the point where a program stops nothing happens. -/
theorem Prints.stop (ht : Prints t s lines (.error e)) :
    Prints (t >>= f) s lines (.error e) := by
  intro before
  show StateT.bind t (ExceptT.bindCont f) (s, before) = _
  unfold StateT.bind
  rw [ht before]
  rfl

/-! ### Whether a program gets to its end -/

/-- The program leaves the state as it is, and gets to its end if the condition holds; otherwise it
stops in one of these ways. -/
def Decides (Q : Prop) (Bad : ε → Prop) (t : Program σ ω ε α) (s : σ) : Prop :=
  ∃ lines result, Prints t s lines result ∧
    match result with
    | .ok _ => Q
    | .error e => ¬ Q ∧ Bad e

variable {Q R : Prop} {Bad : ε → Prop}

theorem Prints.completes (ht : Prints t s lines (.ok a)) : Decides True Bad t s :=
  ⟨lines, .ok a, ht, trivial⟩

theorem decides_throw (hQ : ¬ Q) (he : Bad e) :
    Decides Q Bad (throw e : Program σ ω ε α) s :=
  ⟨[], .error e, prints_throw e, hQ, he⟩

theorem Decides.congr (ht : Decides Q Bad t s) (hQR : Q ↔ R) : Decides R Bad t s := by
  rwa [← propext hQR]

/-- A step with a known result. -/
theorem Prints.decides (ht : Prints t s lines (.ok a)) (hf : Decides Q Bad (f a) s) :
    Decides Q Bad (t >>= f) s := by
  obtain ⟨lines', result, hprints, hresult⟩ := hf
  exact ⟨lines ++ lines', result, ht.bind hprints, hresult⟩

/-- Two steps get to their end if both do. -/
theorem Decides.bind (ht : Decides Q Bad t s) (hf : ∀ a, Decides R Bad (f a) s) :
    Decides (Q ∧ R) Bad (t >>= f) s := by
  obtain ⟨lines, result, hprints, hresult⟩ := ht
  cases result with
  | error e => exact ⟨lines, .error e, hprints.stop, fun hQR => hresult.1 hQR.1, hresult.2⟩
  | ok a =>
    exact (hprints.decides (hf a)).congr ⟨fun hR => ⟨hresult, hR⟩, And.right⟩

/-- A step that gets to its end in any case. -/
theorem Decides.andThen (ht : Decides True Bad t s) (hf : ∀ a, Decides Q Bad (f a) s) :
    Decides Q Bad (t >>= f) s :=
  (ht.bind hf).congr (Iff.of_eq (true_and Q))

theorem Decides.before (ht : Decides Q Bad t s) (hf : ∀ a, Decides True Bad (f a) s) :
    Decides Q Bad (t >>= f) s :=
  (ht.bind hf).congr (Iff.of_eq (and_true Q))

/-! ### Programs that print the same -/

/-- Both programs leave this state as it is, print the same lines and end in the same way. -/
def Agrees (t u : Program σ ω ε α) (s : σ) : Prop :=
  ∃ lines result, Prints t s lines result ∧ Prints u s lines result

variable {u : Program σ ω ε α} {g : α → Program σ ω ε β} {w : Program σ ω ε β}

theorem Prints.unique {lines' : List ω} {result' : Except ε α} (ht : Prints t s lines result)
    (ht' : Prints t s lines' result') : lines = lines' ∧ result = result' := by
  have heq := (ht []).symm.trans (ht' [])
  rw [List.nil_append, List.nil_append] at heq
  cases heq
  exact ⟨rfl, rfl⟩

theorem Decides.agrees (ht : Decides Q Bad t s) : Agrees t t s := by
  obtain ⟨lines, result, hprints, -⟩ := ht
  exact ⟨lines, result, hprints, hprints⟩

theorem Agrees.decides (ha : Agrees t u s) (hu : Decides Q Bad u s) : Decides Q Bad t s := by
  obtain ⟨lines, result, ht, hu'⟩ := ha
  obtain ⟨lines', result', hprints, hresult⟩ := hu
  obtain ⟨rfl, rfl⟩ := hu'.unique hprints
  exact ⟨lines, result, ht, hresult⟩

theorem Agrees.bind (ht : Agrees t u s) (hf : ∀ a, Agrees (f a) (g a) s) :
    Agrees (t >>= f) (u >>= g) s := by
  obtain ⟨lines, result, ht, hu⟩ := ht
  cases result with
  | error e => exact ⟨lines, .error e, ht.stop, hu.stop⟩
  | ok a =>
    obtain ⟨lines', result', hf, hg⟩ := hf a
    exact ⟨lines ++ lines', result', ht.bind hf, hu.bind hg⟩

/-- A question makes no difference. -/
theorem Prints.agrees (ht : Prints t s [] (.ok a)) (hf : Agrees (f a) w s) :
    Agrees (t >>= f) w s := by
  obtain ⟨lines, result, hf, hw⟩ := hf
  exact ⟨lines, result, ht.bind hf, hw⟩

end MangOH.Transcript
