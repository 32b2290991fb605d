import PyTagsFs.Reachable
import Mathlib.Data.List.Chain

/-! # `DeferredSourceTreeMonitor`

The deferred monitor queues the events and hands them on in `finish_processing`; an update
is not queued when the last queued event of its path is an update. It is wired to the
representation through `set_*_cb`, as the monitor tests do: `SourceTreeRepresentation`
assigns the monitor's callbacks directly, so pytagsfs itself never queues. -/

namespace PyTagsFs.Deferred

inductive Action where
  | add
  | remove
  | update
  deriving DecidableEq

/-- `(action, path) + args`; the one argument a monitor passes is `is_dir`. -/
structure Event where
  action : Action
  path : RealPath
  isDir : Option Bool
  deriving DecidableEq

/-- `self.event_queue.append((action, path) + args)`. -/
def queueEvent (eventQueue : List Event) (action : Action) (path : RealPath) (isDir : Option Bool) :
    List Event :=
  eventQueue ++ [⟨action, path, isDir⟩]

def dstmAddCb (eventQueue : List Event) (path : RealPath) (isDir : Option Bool) : List Event :=
  queueEvent eventQueue .add path isDir

def dstmRemoveCb (eventQueue : List Event) (path : RealPath) (isDir : Option Bool) : List Event :=
  queueEvent eventQueue .remove path isDir

/-- An update is dropped when the last queued event of its path is an update. -/
def dstmUpdateCb (eventQueue : List Event) (path : RealPath) (isDir : Option Bool) : List Event :=
  match eventQueue.reverse.find? (·.path = path) with
  | some event =>
    if event.action = .update then eventQueue else queueEvent eventQueue .update path isDir
  | none => queueEvent eventQueue .update path isDir

/-- The callback a monitor calls for an event, as `set_*_cb` installed it. -/
def deliver (eventQueue : List Event) (event : Event) : List Event :=
  match event.action with
  | .add => dstmAddCb eventQueue event.path event.isDir
  | .remove => dstmRemoveCb eventQueue event.path event.isDir
  | .update => dstmUpdateCb eventQueue event.path event.isDir

/-- The callbacks of the representation, kept as `orig_*_cb`. -/
structure Callbacks (σ : Type) where
  addCb : RealPath → Option Bool → EStateM Error σ Unit
  removeCb : RealPath → Option Bool → EStateM Error σ Unit
  updateCb : RealPath → Option Bool → EStateM Error σ Unit

/-- The branch of `finish_processing` that hands an event to its callback. -/
def Callbacks.dispatch {σ : Type} (cb : Callbacks σ) (event : Event) : EStateM Error σ Unit :=
  match event.action with
  | .add => cb.addCb event.path event.isDir
  | .remove => cb.removeCb event.path event.isDir
  | .update => cb.updateCb event.path event.isDir

def repCallbacks : Callbacks Rep := ⟨Rep.addCb, Rep.removeCb, Rep.updateCb⟩

structure State (σ : Type) where
  rep : σ
  eventQueue : List Event

/-- `while self.event_queue: event = self.event_queue.pop(0)` and its dispatch. An
exception leaves the events behind the one that raised in the queue. -/
def finishProcessingFrom {σ : Type} (cb : Callbacks σ) :
    List Event → σ → EStateM.Result Error (State σ) Unit
  | [], rep => .ok () ⟨rep, []⟩
  | event :: rest, rep =>
    match cb.dispatch event rep with
    | .ok _ rep => finishProcessingFrom cb rest rep
    | .error e rep => .error e ⟨rep, rest⟩

def finishProcessing {σ : Type} (cb : Callbacks σ) : EStateM Error (State σ) Unit :=
  fun s => finishProcessingFrom cb s.eventQueue s.rep

/-- `process_events`: the monitor delivers the events it reads, then they are dispatched. -/
def processEvents {σ : Type} (cb : Callbacks σ) (delivered : List Event) :
    EStateM Error (State σ) Unit := do
  modify fun s => { s with eventQueue := delivered.foldl deliver s.eventQueue }
  finishProcessing cb

/-- The states of a deferred monitor over a representation: it queues a delivered event,
dispatches its queue, or the representation takes any of its other calls. -/
inductive Reachable : State Rep → Prop where
  | fresh (s : Rep) : s.pathStore = PyTypesPathStore.initial → Reachable ⟨s, []⟩
  | delivered {d : State Rep} (event : Event) : Reachable d →
      Reachable { d with eventQueue := deliver d.eventQueue event }
  | processed {d : State Rep} : Reachable d → Reachable (stateOf (finishProcessing repCallbacks d))
  | repOp {d : State Rep} (op : Rep.Op) : Reachable d →
      Reachable { d with rep := stateOf (op.run d.rep) }

/-! ## The queue -/

/-- No two updates of a path stand in the queue without another event of that path
between them. -/
def Collapsed (eventQueue : List Event) : Prop :=
  ∀ path, (eventQueue.filter (·.path = path)).Chain' fun e e' =>
    ¬ (e.action = .update ∧ e'.action = .update)

/-- The event `dstm_update_cb` finds scanning the queue backwards is the last of its path. -/
theorem find?_reverse (eventQueue : List Event) (path : RealPath) :
    eventQueue.reverse.find? (·.path = path) = (eventQueue.filter (·.path = path)).getLast? := by
  rw [← List.filter_head?, List.filter_reverse, List.head?_reverse]

theorem Collapsed.queueEvent {eventQueue : List Event} (h : Collapsed eventQueue) {action : Action}
    {path : RealPath} (isDir : Option Bool)
    (hlast : ∀ e ∈ (eventQueue.filter (·.path = path)).getLast?,
      ¬ (e.action = .update ∧ action = .update)) :
    Collapsed (queueEvent eventQueue action path isDir) := by
  intro p
  simp only [PyTagsFs.Deferred.queueEvent, List.filter_append, List.filter_cons, List.filter_nil]
  split_ifs with hp
  · simp only [decide_eq_true_eq] at hp
    subst hp
    exact (h path).append (List.chain'_singleton _) fun e he e' he' => by
      simp only [List.head?_cons, Option.mem_def, Option.some.injEq] at he'
      subst he'
      exact hlast e he
  · simpa using h p

theorem Collapsed.deliver {eventQueue : List Event} (h : Collapsed eventQueue) (event : Event) :
    Collapsed (deliver eventQueue event) := by
  rcases event with ⟨_ | _ | _, path, isDir⟩
  · exact h.queueEvent isDir fun _ _ ⟨_, h⟩ => Action.noConfusion h
  · exact h.queueEvent isDir fun _ _ ⟨_, h⟩ => Action.noConfusion h
  · simp only [PyTagsFs.Deferred.deliver, dstmUpdateCb, find?_reverse]
    split
    · rename_i u hu
      split_ifs with hupd
      · exact h
      · exact h.queueEvent isDir fun e he ⟨he', _⟩ => hupd (by rw [hu] at he; cases he; exact he')
    · rename_i hnone
      exact h.queueEvent isDir fun e he => by rw [hnone] at he; cases he

theorem Collapsed.suffix {l l' : List Event} (h : Collapsed l) (hs : l' <:+ l) : Collapsed l' :=
  fun path => (h path).suffix (hs.filter _)

/-! ## Dispatching the queue -/

/-- `finish_processing` leaves in the queue a suffix of what it found there. -/
theorem finishProcessingFrom_suffix {σ : Type} (cb : Callbacks σ) :
    ∀ (l : List Event) (rep : σ), (stateOf (finishProcessingFrom cb l rep)).eventQueue <:+ l
  | [], _ => List.suffix_refl _
  | e :: rest, rep => by
    simp only [finishProcessingFrom]
    cases cb.dispatch e rep with
    | ok _ rep' => exact (finishProcessingFrom_suffix cb rest rep').trans (List.suffix_cons _ _)
    | error _ rep' => exact List.suffix_cons _ _

/-- `finish_processing` raises and changes the representation as dispatching the queue's
events one after another does. -/
theorem finishProcessingFrom_rep {σ : Type} (cb : Callbacks σ) : ∀ (l : List Event) (rep : σ),
    errorOf (finishProcessingFrom cb l rep) = errorOf (l.forM cb.dispatch rep) ∧
      (stateOf (finishProcessingFrom cb l rep)).rep = stateOf (l.forM cb.dispatch rep)
  | [], _ => ⟨rfl, rfl⟩
  | e :: rest, rep => by
    simp only [finishProcessingFrom, List.forM_cons', bind_apply, EStateM.bind]
    cases cb.dispatch e rep with
    | ok _ rep' => exact finishProcessingFrom_rep cb rest rep'
    | error _ _ => exact ⟨rfl, rfl⟩

/-- Each dispatch is a call of the representation's. -/
theorem reachable_dispatch {rep : Rep} (h : Rep.Reachable rep) (event : Event) :
    Rep.Reachable (stateOf (repCallbacks.dispatch event rep)) := by
  rcases event with ⟨_ | _ | _, path, isDir⟩
  · exact .step (.addCb path isDir) h
  · exact .step (.removeCb path isDir) h
  · exact .step (.updateCb path isDir) h

theorem reachable_finishProcessingFrom :
    ∀ (l : List Event) {rep : Rep}, Rep.Reachable rep →
      Rep.Reachable (stateOf (finishProcessingFrom repCallbacks l rep)).rep
  | [], _, h => h
  | e :: rest, rep, h => by
    have he := reachable_dispatch h e
    simp only [finishProcessingFrom]
    revert he
    cases repCallbacks.dispatch e rep with
    | ok _ rep' => exact reachable_finishProcessingFrom rest
    | error _ rep' => exact id

/-- Every state of a deferred monitor holds a representation that the representation reaches
by its own calls, and a queue with no update of a path right after another. -/
theorem deferred_states_reachable {d : State Rep} (hd : Reachable d) :
    Rep.Reachable d.rep ∧ Collapsed d.eventQueue := by
  induction hd with
  | fresh s hs => exact ⟨.fresh s hs, fun _ => List.chain'_nil⟩
  | delivered event _ ih => exact ⟨ih.1, ih.2.deliver event⟩
  | processed _ ih =>
    exact ⟨reachable_finishProcessingFrom _ ih.1, ih.2.suffix (finishProcessingFrom_suffix _ _ _)⟩
  | repOp op _ ih => exact ⟨.step op ih.1, ih.2⟩

/-- An update of `/a`, an addition of `/b` and another update of `/a`, delivered to a fresh
representation's deferred monitor: the second update is not queued. -/
def updateAddUpdate : List Event :=
  [⟨.update, "/a", some false⟩, ⟨.add, "/b", some false⟩, ⟨.update, "/a", some false⟩]

def updateAddUpdateQueued : State Rep := ⟨emptyRep, updateAddUpdate.foldl deliver []⟩

example : updateAddUpdateQueued.eventQueue = updateAddUpdate.take 2 := by decide

theorem updateAddUpdate_reachable : Reachable updateAddUpdateQueued :=
  .delivered ⟨.update, "/a", some false⟩ <| .delivered ⟨.add, "/b", some false⟩ <|
    .delivered ⟨.update, "/a", some false⟩ (.fresh emptyRep rfl)

theorem updateAddUpdate_states : Reachable updateAddUpdateQueued ∧
    Rep.Reachable updateAddUpdateQueued.rep ∧ Collapsed updateAddUpdateQueued.eventQueue :=
  ⟨updateAddUpdate_reachable, deferred_states_reachable updateAddUpdate_reachable⟩

/-- `finish_processing` of a queue that dispatched without raising resumes on what follows. -/
theorem finishProcessingFrom_append {σ : Type} (cb : Callbacks σ) (l' : List Event) :
    ∀ (l : List Event) (rep : σ), errorOf (finishProcessingFrom cb l rep) = none →
      finishProcessingFrom cb (l ++ l') rep = finishProcessingFrom cb l' (stateOf (finishProcessingFrom cb l rep)).rep
  | [], _, _ => rfl
  | e :: rest, rep, h => by
    simp only [finishProcessingFrom, List.cons_append] at h ⊢
    cases hd : cb.dispatch e rep with
    | ok _ rep' => simpa [hd] using finishProcessingFrom_append cb l' rest rep' (by simpa [hd] using h)
    | error _ _ => simp [hd, errorOf] at h

/-! ## A dropped update -/

theorem removeSourceFile_of_unmapped {r : RealPath} {t : Rep} {e : Error}
    (h : t.pathStore.getFakePaths r = .error e) (he : e.isPathNotFound = true) :
    Rep.removeSourceFile r t = .ok () t := by
  simp [Rep.removeSourceFile, h, he]

/-- `add_source_file` of a readable file removes the file's mappings first; from the state
that removal leaves it does the same. -/
theorem addSourceFile_of_removed {r : RealPath} {s t : Rep} (hrd : s.sourceTree.isreadable r = true)
    (hsl : s.sourceTree.issymlink r = false) (hst : t.sourceTree = s.sourceTree)
    (h : Rep.removeSourceFile r s = .ok () t) (ht : Rep.removeSourceFile r t = .ok () t) :
    Rep.addSourceFile r s = Rep.addSourceFile r t := by
  simp only [Rep.addSourceFile, bind_apply, EStateM.bind, get_apply, hst, hrd, hsl, Bool.not_true,
    Bool.false_eq_true, ite_false, tryCatch_apply, tryCatch_run, h, ht, pure_apply]

/-- `/src/f` and `/src/g`, both tagged `a = x` under `%a`, before the monitor reports them. -/
def sharedValueRep : Rep := freshRep
  ⟨(Dict.empty.set "/src/f" (Dict.empty.set "a" ["x"])).set "/src/g" (Dict.empty.set "a" ["x"]), fun _ => []⟩
  [variablePattern "a"] (flatTree true ["/src/f", "/src/g"])

/-- An update of `/src/f`, the addition of `/src/g` and another update of `/src/f`. -/
def sharedEvents : List Event :=
  [⟨.update, "/src/f", some false⟩, ⟨.add, "/src/g", some false⟩, ⟨.update, "/src/f", some false⟩]

/-- The representation after the first two events: `/x` maps to both files. -/
def sharedTwoEvents : Rep := (stateOf (finishProcessingFrom repCallbacks (sharedEvents.take 2) sharedValueRep)).rep

/-- `sharedTwoEvents` after the removal that starts the second update of `/src/f`. -/
def sharedFRemoved : Rep := stateOf (Rep.removeSourceFile "/src/f" sharedTwoEvents)

end PyTagsFs.Deferred
