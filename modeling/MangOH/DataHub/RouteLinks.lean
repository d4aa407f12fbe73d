import MangOH.DataHub.Reachability
import MangOH.DataHub.Scenario

/-! The two ends of a route agree: the source pointer of a resource, and the list of destinations of
its source. -/
namespace MangOH.DataHub

open Outcome

variable {P : Platform} {b h : Hub} {s : DataSample} {t : DataType} {o : Observation}
  {op : ReadOperation} {x : Resource}

/-! ### Reads of a buffer: their only faults are misread values, and running out of fuel -/

section Reads

variable {B : Fault → Prop} (hB : ¬ B .typeConfusion)

include hB

theorem misread_getBoolean (s : DataSample) :
    Sat B (dataSampleGetBoolean s) fun _ => True := by
  unfold dataSampleGetBoolean
  split <;> simp [hB]

theorem misread_getNumeric (s : DataSample) :
    Sat B (dataSampleGetNumeric s) fun _ => True := by
  unfold dataSampleGetNumeric
  split <;> simp [hB]

theorem misread_getText (t : DataType) (s : DataSample) :
    Sat B (dataSampleGetText t s) fun _ => True := by
  unfold dataSampleGetText
  split <;> simp [hB]

theorem misread_convertToJson (s : DataSample) (t : DataType) (size : Nat) :
    Sat B (dataSampleConvertToJson P s t size) fun _ => True := by
  cases t with
  | trigger => exact trivial
  | boolean => exact (misread_getBoolean hB s).bind fun _ _ => trivial
  | numeric => exact (misread_getNumeric hB s).bind fun _ _ => trivial
  | string => exact (misread_getText hB _ s).bind fun _ _ => trivial
  | json => exact (misread_getText hB _ s).bind fun _ _ => trivial

theorem misread_convertToString (s : DataSample) (t : DataType) (size : Nat) :
    Sat B (dataSampleConvertToString P s t size) fun _ => True := by
  unfold dataSampleConvertToString
  split
  · exact (misread_getText hB _ s).bind fun _ _ => trivial
  · exact misread_convertToJson hB s t size

theorem misread_bufferedNumbers (env : Environment) (o : Observation) (startTime : Double) :
    Sat B (bufferedNumbers P env o startTime) fun _ => True := by
  have hnumber : ∀ e, Sat B (getBufferedNumber e o.bufferedType) fun _ => True := by
    intro e
    unfold getBufferedNumber
    split
    · exact misread_getNumeric hB _
    · exact (misread_getBoolean hB _).bind fun _ _ => trivial
    · exact trivial
  have hall : ∀ l : List BufferEntry,
      Sat B (l.mapM (getBufferedNumber · o.bufferedType)) fun _ => True := by
    intro l
    induction l with
    | nil => exact trivial
    | cons e l ih =>
      rw [List.mapM_cons]
      exact (hnumber e).bind fun _ _ => ih.bind fun _ _ => trivial
  unfold bufferedNumbers
  split
  · exact trivial
  · exact (hall _).bind fun _ _ => trivial

omit hB in
theorem misread_readBufferSample {startAfter : Double}
    {read : DataSample → Except Fault (Option Argument)} {dataType : Option DataType}
    (hread : ∀ s, Sat B (read s) fun _ => True) :
    Sat B (readBufferSample P h x o startAfter read dataType) fun _ => True := by
  unfold readBufferSample
  split
  · exact trivial
  · split
    · exact trivial
    · split
      · exact trivial
      · exact (hread _).bind fun _ _ => trivial

theorem misread_answerQuery (query : BufferQuery) :
    Sat B (answerQuery P h x o query) fun _ => True := by
  cases query with
  | timestamp => exact misread_readBufferSample fun _ => trivial
  | boolean =>
    exact misread_readBufferSample fun s => (misread_getBoolean hB s).bind fun _ _ => trivial
  | numeric =>
    exact misread_readBufferSample fun s => (misread_getNumeric hB s).bind fun _ _ => trivial
  | string startAfter size =>
    exact misread_readBufferSample fun s =>
      (misread_convertToString hB s x.currentType size).bind fun _ _ => trivial
  | json startAfter size =>
    exact misread_readBufferSample fun s =>
      (misread_convertToJson hB s x.currentType size).bind fun _ _ => trivial
  | min | max | mean | stdDev =>
    refine Sat.bind (Q := fun _ => True) ?_ fun _ _ => trivial
    exact (misread_bufferedNumbers hB h.env o _).bind fun _ _ => trivial

variable (hfuel : ¬ B .outOfFuel)

include hfuel

theorem misread_loadLoop (fuel : Nat) (o : Observation) (op : ReadOperation) :
    Sat B (loadLoop P t fuel o op) fun _ => True := by
  induction fuel generalizing o op with
  | zero => simp [loadLoop, hfuel]
  | succ fuel ih =>
    have hrender : ∀ s, Sat B (renderEntry P t s) fun _ => True := by
      intro s
      unfold renderEntry
      dsimp only
      split
      · exact trivial
      · exact (misread_convertToJson hB s t _).bind fun _ _ => trivial
    unfold loadLoop
    split
    · exact trivial
    · split
      · exact trivial
      · refine (hrender _).bind fun text _ => ?_
        cases text with
        | some text => exact trivial
        | none => exact (ih _ _).bind fun _ _ => trivial

theorem misread_continueReadOp (script : List WriteResult) (o : Observation) (op : ReadOperation) :
    Sat B (continueReadOp P t script o op) fun _ => True := by
  induction script generalizing o op with
  | nil => exact trivial
  | cons result script ih =>
    cases result with
    | again => exact trivial
    | failed => exact trivial
    | wrote n =>
      have hnext : Sat B (nextState P t o op (min (n + 1) (pendingBytes op).length))
          fun _ => True := by
        unfold nextState
        dsimp only
        split
        · exact trivial
        · split
          · exact (misread_loadLoop hB hfuel _ _ _).bind fun _ _ => trivial
          · exact trivial
        · exact trivial
        · exact trivial
      unfold continueReadOp
      refine hnext.bind fun next _ => ?_
      split
      · exact trivial
      · exact (ih _ _).bind fun _ _ => trivial

end Reads

/-! ### Reads of a buffer free nothing -/

/-- The assertions about what is freed. -/
def FreeFault (f : Fault) : Prop := f = .routeAssertion ∨ f = .entryAssertion

theorem bad_of_freeFault (f : Fault) (hf : FreeFault f) : Bad f := by
  rcases hf with rfl | rfl <;> exact trivial

theorem free_step_reads (fuel : Nat) (he : Ext P b h) (op : Op) (hread : op.reads = true) :
    Sat FreeFault (step P fuel h op) fun _ => True := by
  have hB : ¬ FreeFault .typeConfusion := by simp [FreeFault]
  have hfuel : ¬ FreeFault .outOfFuel := by simp [FreeFault]
  refine sat_step_reads bad_of_freeFault he fuel op hread ?_ ?_ ?_
  · intro r x o id startAfter script _ _ _
    unfold obsReadBufferJson loadReadOpBuffer
    exact (misread_loadLoop hB hfuel _ _ _).bind fun _ _ =>
      (misread_continueReadOp hB hfuel _ _ _).bind fun _ _ => trivial
  · exact fun _ _ _ query _ _ _ => misread_answerQuery hB query
  · intro r x o id hangUp script _ _ _
    unfold readOpFdEventHandler
    split
    · exact trivial
    · exact (misread_continueReadOp hB hfuel _ _ _).bind fun _ _ => trivial

/-- No operation frees a resource that still has routes. -/
theorem sat_step_route (fuel : Nat) (he : Ext P b h) (op : Op) :
    Sat (fun f => f = .routeAssertion) (step P fuel h op) fun _ => True := by
  cases hread : op.reads with
  | false =>
    exact ((sat_step_confusion fuel he op hread).weaken fun _ hf => .inr hf).mono fun _ _ => trivial
  | true => exact (free_step_reads fuel he op hread).weaken fun _ hf => .inl hf

/-! ### The routes of the hub -/

/-- The resource is attached to an entry of the tree. -/
def AttachedResource (h : Hub) (r : ResRef) : Prop :=
  ∃ x entry, h.resources r = some x ∧ h.entries x.entryRef = some entry ∧
    entry.resourcePtr = some r

/-- A resource is once in the list of its source and in no other list, both ends of a route are
attached to the tree, and no resource is freed while it has routes. -/
structure RouteLinks (P : Platform) (h : Hub) : Prop where
  agree : ∀ s d x y, h.resources s = some x → h.resources d = some y →
    x.destList.count d = if y.srcPtr = some s then 1 else 0
  source : ∀ d y s, h.resources d = some y → y.srcPtr = some s → AttachedResource h s
  dest : ∀ s x d, h.resources s = some x → d ∈ x.destList → AttachedResource h d
  destruct : ∀ fuel op, step P fuel h op ≠ .error .routeAssertion

theorem attachedResource_of_resource (hwf : WellFormed h) {r : ResRef}
    (hx : h.resources r = some x) : AttachedResource h r := by
  obtain ⟨entry, he, hr⟩ := hwf.entryOf r x hx
  exact ⟨x, entry, hx, he, hr⟩

/-- The two ends of each route agree in every state of the hub. -/
theorem route_links (hr : Reachable P h) : RouteLinks P h := by
  obtain ⟨env, files, he⟩ := reachable_ext hr
  have hwf := he.wf
  refine ⟨?_, ?_, ?_, ?_⟩
  · intro s d x y hx hy
    have hcount := hwf.routes s d
    rwa [dests_of_resource hx, src_of_resource hy] at hcount
  · intro d y s hy hs
    obtain ⟨⟨x, hx⟩, _⟩ := exists_of_route hwf ((src_of_resource hy).trans hs)
    exact attachedResource_of_resource hwf hx
  · intro s x d hx hd
    have hroute := hwf.routes.mem_iff.mp ((dests_of_resource hx).symm ▸ hd)
    obtain ⟨_, y, hy⟩ := exists_of_route hwf hroute
    exact attachedResource_of_resource hwf hy
  · exact fun fuel op heq => (sat_step_route fuel he op).no_bad heq rfl

/-- Routes into and out of an Input that is deleted, and then created again. -/
def reroutedRun : List Op :=
  [.ioCreateInput 0 (ascii "x") .numeric [],
   .adminSetSource (ascii "/app/a/x") (ascii "/app/a/y"),
   .adminSetSource (ascii "/obs/o") (ascii "/app/a/x"),
   .ioDeleteResource 0 (ascii "x"),
   .ioCreateInput 0 (ascii "x") .numeric []]

theorem route_links_reroutedRun : ∃ h, Reachable smallPlatform h ∧
    ((h.resources 4).any fun x => x.srcPtr = some 1 && x.destList = [2]) = true ∧
    RouteLinks smallPlatform h := by
  have hrun : smallRunEnds reroutedRun (fun h =>
      (h.resources 4).any fun x => x.srcPtr = some 1 && x.destList = [2]) = true := by
    decide +kernel
  obtain ⟨h, hr, hp⟩ := exists_of_smallRunEnds hrun
  exact ⟨h, hr, hp, route_links hr⟩

end MangOH.DataHub
