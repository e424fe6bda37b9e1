import ArmLink.Link.Run
import ArmLink.Proofs.Except

/-!
# What a link asks of its surroundings

A link can be run with surroundings that write down what they are asked for. What they answer may
depend on all that they were asked before.
-/

namespace ArmLink

open List

variable {request : Request} {more : List Request}

/-- A request of a link. -/
inductive Request where
  | read (path : String)
  | create (path : String)
  | fill (path : String) (bytes : Array UInt8)
  | remove (path : String)
  | uuid
  | warn (text : String)
  | ended (phase : Phase)
  deriving DecidableEq

/-- The file that a request changes, if it changes any. -/
def Request.changes? : Request → Option String
  | create path | fill path _ | remove path => some path
  | read _ | uuid | warn _ | ended _ => none

/-- What is answered, given what was asked before. -/
structure Surroundings where
  read : List Request → String → Except FileFault Bytes
  create : List Request → String → Except FileFault Unit
  fill : List Request → String → Array UInt8 → Except FileFault Unit
  uuid : List Request → { id : Bytes // id.length = 16 }

namespace Surroundings

def ask {α : Type} (request : Request) (answer : List Request → α) : StateM (List Request) α :=
  fun log => (answer log, log ++ [request])

def host (w : Surroundings) : Host (StateM (List Request)) where
  during phase act := do
    let a ← act
    ask (.ended phase) fun _ => a
  read path := ask (.read path) fun log => w.read log path
  create path := ask (.create path) fun log => w.create log path
  fill path bytes := ask (.fill path bytes) fun log => w.fill log path bytes
  remove path := ask (.remove path) fun _ => ()
  uuid := ask .uuid fun log => (w.uuid log).val
  warn text := ask (.warn text) fun _ => ()

end Surroundings

namespace Link

variable {α β : Type} {w : Surroundings} {o : Options}

/-- A step of a link whose requests are logged. -/
abbrev Logged (α : Type) := ExceptT LinkError (StateM (List Request)) α

/-- Whatever was asked before, the step ends with a result, having made requests, of which `post`
holds. -/
def Ends (act : Logged α) (post : Except LinkError α → List Request → Prop) : Prop :=
  ∀ log, ∃ result more, act.run.run log = (result, log ++ more) ∧ post result more

/-- No file is changed. -/
def Untouched (more : List Request) : Prop := ∀ request ∈ more, request.changes? = none

theorem untouched_cons :
    Untouched (request :: more) ↔ request.changes? = none ∧ Untouched more := forall_mem_cons

theorem untouched_append {more' : List Request} :
    Untouched (more ++ more') ↔ Untouched more ∧ Untouched more' := forall_mem_append

/-- The step ends with a known result, and no file is changed until then. -/
def EndsWith (act : Logged α) (result : Except LinkError α) : Prop :=
  Ends act fun r more => r = result ∧ Untouched more

/-! ## Rules -/

variable {act : Logged α} {next : α → Logged β} {answer : List Request → α}
  {post : Except LinkError α → List Request → Prop}

theorem Ends.weaken {post post' : Except LinkError α → List Request → Prop}
    (h : Ends act post) (hpost : ∀ r more, post r more → post' r more) : Ends act post' := by
  intro log
  obtain ⟨result, more, hrun, hmore⟩ := h log
  exact ⟨result, more, hrun, hpost result more hmore⟩

theorem EndsWith.of_eq {result result' : Except LinkError α}
    (h : EndsWith act result) (heq : result = result') : EndsWith act result' := heq ▸ h

theorem ends_plainStep (result : Except LinkError α) : EndsWith (plainStep result) result := by
  intro log
  refine ⟨result, [], ?_, rfl, nofun⟩
  rw [append_nil]
  rfl

theorem ends_pure (a : α) : EndsWith (pure a) (.ok a) := ends_plainStep (.ok a)

theorem ends_ask : Ends (ExceptT.lift (Surroundings.ask request answer))
      fun r more => (∃ log, r = .ok (answer log)) ∧ more = [request] :=
  fun log => ⟨.ok (answer log), [request], rfl, ⟨log, rfl⟩, rfl⟩

theorem Ends.lift (h : Ends act post) :
    Ends (ExceptT.lift act.run) fun r more => ∃ result, r = .ok result ∧ post result more := by
  intro log
  obtain ⟨result, more, hrun, hmore⟩ := h log
  have hlift : (ExceptT.lift act.run : Logged _).run.run log =
      (.ok (act.run.run log).1, (act.run.run log).2) := rfl
  rw [hrun] at hlift
  exact ⟨.ok result, more, hlift, result, rfl, hmore⟩

theorem Ends.bind {post' : Except LinkError β → List Request → Prop} (h : Ends act post)
    (herror : ∀ e more, post (.error e) more → post' (.error e) more)
    (hok : ∀ a more, post (.ok a) more →
      Ends (next a) fun r more' => post' r (more ++ more')) : Ends (act >>= next) post' := by
  intro log
  obtain ⟨result, more, hrun, hpost⟩ := h log
  have hbind : (act >>= next).run.run log =
      (ExceptT.bindCont next (act.run.run log).1).run (act.run.run log).2 := rfl
  rw [hbind, hrun]
  cases result with
  | error e => exact ⟨.error e, more, rfl, herror e more hpost⟩
  | ok a =>
    obtain ⟨result', more', hrun', hpost'⟩ := hok a more hpost (log ++ more)
    refine ⟨result', more ++ more', ?_, hpost'⟩
    rw [← append_assoc]
    exact hrun'

theorem ends_ask_bind {post : Except LinkError β → List Request → Prop}
    (h : ∀ log, Ends (next (answer log)) fun r more => post r (request :: more)) :
    Ends (ExceptT.lift (Surroundings.ask request answer) >>= next) post := by
  refine ends_ask.bind ?_ ?_
  · rintro e _ ⟨⟨_, h⟩, -⟩
    cases h
  · rintro a _ ⟨⟨log, ha⟩, rfl⟩
    obtain rfl := Except.ok.inj ha
    exact h log

theorem EndsWith.bind {result : Except LinkError α}
    {next' : α → Except LinkError β} (h : EndsWith act result)
    (hnext : ∀ a, EndsWith (next a) (next' a)) : EndsWith (act >>= next) (result >>= next') := by
  refine Ends.bind h ?_ ?_
  · rintro e more ⟨rfl, hmore⟩
    exact ⟨rfl, hmore⟩
  · rintro a more ⟨rfl, hmore⟩
    refine (hnext a).weaken ?_
    rintro r more' ⟨rfl, hmore'⟩
    exact ⟨rfl, untouched_append.mpr ⟨hmore, hmore'⟩⟩

/-- A step that succeeds and then another one, of which `post` holds whatever was asked before. -/
theorem EndsWith.andThen {a : α}
    {post : Except LinkError β → List Request → Prop} (h : EndsWith act (.ok a))
    (hnext : Ends (next a) post)
    (hpost : ∀ r more more', Untouched more → post r more' → post r (more ++ more')) :
    Ends (act >>= next) post := by
  refine Ends.bind h ?_ ?_
  · rintro e more ⟨h, -⟩
    cases h
  · rintro a' more ⟨h, hmore⟩
    cases h
    exact hnext.weaken fun r more' h => hpost r more more' hmore h

/-- A phase may be reported at its end, which changes no file. -/
theorem Ends.during (h : Ends act post) (phase : Phase)
    (hpost : ∀ r more more', post r more → Untouched more' → post r (more ++ more')) :
    Ends (Link.during (observerFor w.host o) phase act) post := by
  unfold observerFor
  split
  · intro log
    obtain ⟨result, more, hrun, hmore⟩ := h log
    refine ⟨result, more ++ [.ended phase], ?_, hpost result more _ hmore ?_⟩
    · have hduring : (Link.during w.host.toObserver phase act).run.run log =
          ((act.run.run log).1, (act.run.run log).2 ++ [.ended phase]) := rfl
      rw [hduring, hrun, ← append_assoc]
    · exact untouched_cons.mpr ⟨rfl, nofun⟩
  · exact h

theorem ends_step (phase : Phase) (compute : Unit → Except LinkError α) :
    EndsWith (step (observerFor w.host o) phase compute) (compute ()) := by
  refine Ends.during (ends_plainStep (compute ())) phase ?_
  rintro r more more' ⟨hr, hmore⟩ hmore'
  exact ⟨hr, untouched_append.mpr ⟨hmore, hmore'⟩⟩

/-! ## Plain computation -/

/-- Steps that are put together end as they would if nobody looked. -/
theorem EndsWith.bind_silent {act' : ExceptT LinkError Id α}
    {next' : α → ExceptT LinkError Id β} (h : EndsWith act act'.run)
    (hnext : ∀ a, EndsWith (next a) (next' a).run) :
    EndsWith (act >>= next) (act' >>= next').run := by
  rw [run_bind]
  exact h.bind hnext

theorem ends_mergeAll (objects : List Object) (index : Nat) (t : SymbolTable) :
    EndsWith (mergeAll (observerFor w.host o) objects index t)
      (mergeAll (m := Id) .silent objects index t).run := by
  induction objects generalizing index t with
  | nil => exact ends_pure t
  | cons ob objects ih => exact (ends_step _ _).bind_silent fun t => ih (index + 1) t

theorem ends_collectWith (objects : List Object) :
    EndsWith (collectWith (observerFor w.host o) o objects) (collect o objects) :=
  (ends_mergeAll objects 0 .initial).bind_silent fun _ =>
    (ends_plainStep _).bind_silent fun _ => ends_step _ _

theorem ends_makeDynamic (t : SymbolTable) :
    EndsWith (makeDynamic (observerFor w.host o) o t) (makeDynamic (m := Id) .silent o t).run := by
  unfold makeDynamic
  split
  · exact (ends_step _ _).bind_silent fun _ => ends_pure _
  · exact ends_pure _

theorem ends_finishDynamic (d? : Option DynamicTables) (t : SymbolTable) :
    EndsWith (finishDynamic (observerFor w.host o) o d? t)
      (finishDynamic (m := Id) .silent o d? t).run := by
  unfold finishDynamic
  split
  · exact ends_pure _
  · split
    · exact (ends_step _ _).bind_silent fun _ => ends_step _ _
    · exact (ends_pure _).bind_silent fun _ => ends_step _ _

/-- **Prepare.** From objects to addresses no file is changed, whoever looks. -/
theorem ends_prepareWith (objects : List Object) :
    EndsWith (prepareWith (observerFor w.host o) o objects) (prepare o objects) :=
  (ends_collectWith objects).bind_silent fun t =>
    (ends_makeDynamic t).bind_silent fun _ =>
      (ends_step _ _).bind_silent fun _ =>
        (ends_finishDynamic _ _).bind_silent fun _ =>
          (ends_step _ _).bind_silent fun _ => (ends_step _ _).bind_silent fun _ => ends_pure _

theorem ends_readAll (paths : List String) :
    Ends (readAll w.host paths) fun _ more => Untouched more := by
  induction paths with
  | nil => exact (ends_pure []).weaken fun _ _ h => h.2
  | cons path paths ih =>
    refine ends_ask_bind fun log => ?_
    refine Ends.bind (ends_plainStep _) (fun _ _ h => untouched_cons.mpr ⟨rfl, h.2⟩) ?_
    rintro object more ⟨-, hmore⟩
    refine Ends.bind ih (fun _ _ h => ?_) fun others more' hmore' => ?_
    · exact untouched_cons.mpr ⟨rfl, untouched_append.mpr ⟨hmore, h⟩⟩
    refine (ends_pure _).weaken fun _ _ h => ?_
    simp only [untouched_cons, untouched_append]
    exact ⟨rfl, hmore, hmore', h.2⟩

end Link

end ArmLink
