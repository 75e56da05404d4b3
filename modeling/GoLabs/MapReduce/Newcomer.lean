import GoLabs.MapReduce.Finished
import GoLabs.MapReduce.Shutdown

/-!
# One more worker

What a worker gets done that meets no crash and no error, whatever the others have left behind: from
`GetTask` on it goes through its task in operations of its own, and its report commits the task.  A
poll of `Done` that comes late enough replaces every task in progress by one that can be given out
again.
-/

open GoLabs.Reasoning

namespace GoLabs.MapReduce

/-! ## A worker by itself -/

/-- One operation of a worker that nobody disturbs. -/
def WorkerPc.Goes (spec : JobSpec) (a b : WorkerPc × Disk) : Prop :=
  ∃ it, WorkerPc.Advance spec it a.2 a.1 b.1 b.2

/-- The files a worker has created for its task. -/
def WorkerPc.createdNames : WorkerPc → List GoString
  | .mapping _ _ _ _ created | .mapOpen _ _ _ _ _ created _ | .writing _ _ _ created
  | .reduceOpen _ _ _ _ _ created _ => created.keys
  | .reporting _ files => files
  | .idle | .reading _ _ _ _ | .gone => []

namespace WorkerPc

variable {n nReduce : Nat} {r : GoString} {d : Disk} {files : List GoString}

/-- The files a worker has created are there. -/
def Made (a : WorkerPc × Disk) : Prop := ∀ f ∈ a.1.createdNames, a.2.read f ≠ none

theorem made_openFile {names : List GoString} {created : Created} {name : GoString}
    (h : ∀ f ∈ created.keys, d.read f ≠ none) (hnames : names = (created.insert name true).keys) :
    ∀ f ∈ names, (d.openFile name).2.read f ≠ none := by
  subst hnames
  intro f hf
  rw [Disk.read_openFile]
  obtain rfl | hold := GoMap.mem_keys_insert.mp hf
  · simp
  · split
    · simp
    · exact h f hold

theorem Made.goes {spec : JobSpec} {a b : WorkerPc × Disk} (h : Made a) (hab : Goes spec a b) :
    Made b := by
  obtain ⟨pc, d⟩ := a
  obtain ⟨pc', d'⟩ := b
  obtain ⟨it, hadv⟩ := hab
  have hstays : ∀ f, d.read f ≠ none → d'.read f ≠ none := fun _ ↦ Job.read_advance_ne_none hadv
  cases hadv with
  | mapPanic => exact List.forall_mem_nil _
  | mapOpen hn => exact made_openFile h rfl
  | mapWrite => exact fun f hf ↦ hstays f (h f hf)
  | mapMissing hread => exact List.forall_mem_nil _
  | mapRead hread => exact h
  | mapEnd => exact fun f hf ↦ h f ((it.perm _).mem_iff.mp hf)
  | readFail hread => exact List.forall_mem_nil _
  | read hread hparse => exact List.forall_mem_nil _
  | readEnd => exact fun f hf ↦ by simp [createdNames] at hf
  | reduceOpen => exact made_openFile h rfl
  | write => exact fun f hf ↦ hstays f (h f hf)
  | writeEnd => exact fun f hf ↦ h f ((it.perm _).mem_iff.mp hf)

theorem Made.all {spec : JobSpec} {a b : WorkerPc × Disk} (h : Made a)
    (hab : Relation.ReflTransGen (Goes spec) a b) : Made b := by
  induction hab with
  | refl => exact h
  | tail _ hlast ih => exact ih.goes hlast

/-- A worker that nobody disturbs appends one record after the other. -/
theorem goes_pair (spec : JobSpec) (hn : nReduce ≠ 0) (kv : KeyValue) (kvs : List KeyValue)
    (created : Created) (d : Disk) :
    Relation.ReflTransGen (Goes spec) (.mapping n nReduce files (kv :: kvs) created, d)
      (.mapping n nReduce files kvs (created.insert (mapOutName n (ihash kv.key % nReduce)) true),
        d.append (mapOutName n (ihash kv.key % nReduce)) (mapRecord kv)) :=
  .head (b := (.mapOpen .., _)) ⟨.stored _, .mapOpen hn⟩ (.single ⟨.stored _, .mapWrite⟩)

theorem goes_entry (spec : JobSpec) (key : GoString) (values : List GoString)
    (entries : List (GoString × List GoString)) (created : Created) (d : Disk) :
    Relation.ReflTransGen (Goes spec) (.writing n r ((key, values) :: entries) created, d)
      (.writing n r entries (created.insert (reduceOutName r) true),
        d.append (reduceOutName r) (reduceRecord key (spec.reducef n key values))) :=
  .head (b := (.reduceOpen .., _)) ⟨.stored _, .reduceOpen⟩ (.single ⟨.stored _, .write⟩)

/-- All pairs of a file get written. -/
theorem goes_pairs (spec : JobSpec) (hn : nReduce ≠ 0) (kvs : List KeyValue) (created : Created) :
    ∃ created' d', Relation.ReflTransGen (Goes spec) (.mapping n nReduce files kvs created, d)
        (.mapping n nReduce files [] created', d') ∧
      ∀ f, d.read f ≠ none → d'.read f ≠ none := by
  induction kvs generalizing created d with
  | nil => exact ⟨created, d, .refl, fun _ h ↦ h⟩
  | cons kv kvs ih =>
      obtain ⟨created', d', hrest, hkeep⟩ := ih _
      refine ⟨created', d', (goes_pair spec hn kv kvs created d).trans hrest, fun f hf ↦ ?_⟩
      apply hkeep
      rw [Disk.read_append]
      split
      · simp
      · exact hf

/-- A map attempt whose files are there gets to its report. -/
theorem goes_mapping (spec : JobSpec) (hn : nReduce ≠ 0) (kvs : List KeyValue) (created : Created)
    (hread : ∀ f ∈ files, d.read f ≠ none) :
    ∃ names d', Relation.ReflTransGen (Goes spec) (.mapping n nReduce files kvs created, d)
      (.reporting n names, d') := by
  induction files generalizing kvs created d with
  | nil =>
      obtain ⟨created', d', hpairs, -⟩ := goes_pairs spec hn kvs created
      exact ⟨_, d', hpairs.tail ⟨.stored _, .mapEnd⟩⟩
  | cons file files ih =>
      obtain ⟨created', d', hpairs, hkeep⟩ := goes_pairs spec hn kvs created
      obtain ⟨hfile, hrest⟩ := List.forall_mem_cons.mp hread
      obtain ⟨content, hcontent⟩ := Option.ne_none_iff_exists'.mp (hkeep file hfile)
      obtain ⟨names, d'', hend⟩ := ih (d := d') (spec.mapf n file content) created'
        fun f hf ↦ hkeep f (hrest f hf)
      exact ⟨names, d'', (hpairs.tail ⟨.stored _, .mapRead hcontent⟩).trans hend⟩

theorem goes_writing (spec : JobSpec) (entries : List (GoString × List GoString))
    (created : Created) :
    ∃ names d', Relation.ReflTransGen (Goes spec) (.writing n r entries created, d)
      (.reporting n names, d') := by
  induction entries generalizing created d with
  | nil => exact ⟨_, d, .single ⟨.stored _, .writeEnd⟩⟩
  | cons entry entries ih =>
      obtain ⟨names, d', hrest⟩ := ih _
      exact ⟨names, d', (goes_entry spec entry.1 entry.2 entries created d).trans hrest⟩

/-- A reduce attempt whose files can be parsed gets to its report. -/
theorem goes_reading (spec : JobSpec) (m : GoMap GoString (List GoString))
    (hread : ∀ f ∈ files, (d.read f).bind parseContent ≠ none) :
    ∃ names d', Relation.ReflTransGen (Goes spec) (.reading n r files m, d)
      (.reporting n names, d') := by
  induction files generalizing m with
  | nil =>
      obtain ⟨names, d', hend⟩ := goes_writing spec (m.range (.stored _)) ∅
      exact ⟨names, d', .head ⟨.stored _, .readEnd⟩ hend⟩
  | cons file files ih =>
      obtain ⟨hfile, hrest⟩ := List.forall_mem_cons.mp hread
      obtain ⟨kvs, hkvs⟩ := Option.ne_none_iff_exists'.mp hfile
      obtain ⟨content, hcontent, hparse⟩ := Option.bind_eq_some_iff.mp hkvs
      obtain ⟨names, d', hend⟩ := ih (GoMap.collect m kvs) hrest
      exact ⟨names, d', .head ⟨.stored _, .read hcontent hparse⟩ hend⟩

end WorkerPc

/-! ## The coordinator -/

namespace Coordinator

variable {c : Coordinator}

/-- A poll of `Done` that comes late enough leaves no task in progress. -/
theorem timeoutTasks_late {now : Nat → Int}
    (hnow : ∀ (i : Nat) (task : Task), c.tasks[i]? = some task →
      now i > task.startTime + c.timeoutSecs) :
    ∀ task ∈ (c.timeoutTasks now).tasks, task.status ≠ .inProgress := by
  -- the loop has reached task `k`; tasks in progress are among those it has yet to look at
  have hloop : ∀ (rest : List Task) (k : Nat) (e : Coordinator), e.timeoutSecs = c.timeoutSecs →
      (∀ (j : Nat) (task : Task), rest[j]? = some task →
        e.tasks[k + j]? = some task ∧ now (k + j) > task.startTime + c.timeoutSecs) →
      (∀ (i : Nat) (task : Task), e.tasks[i]? = some task → task.status = .inProgress →
        k ≤ i ∧ i < k + rest.length) →
      ∀ task ∈ ((rest.zipIdx k).foldl (timeoutTask now) e).tasks, task.status ≠ .inProgress := by
    intro rest
    induction rest with
    | nil =>
        intro k e _ _ hbusy task htask hp
        obtain ⟨i, hi⟩ := List.mem_iff_getElem?.mp htask
        have hrange := hbusy i task hi hp
        simp only [List.length_nil] at hrange
        omega
    | cons first rest ih =>
        intro k e hsecs hrest hbusy
        obtain ⟨hfirst, hlate⟩ := hrest 0 first rfl
        rw [Nat.add_zero] at hfirst hlate
        rw [List.zipIdx_cons, List.foldl_cons]
        by_cases hp : first.status = .inProgress
        · have hbody : timeoutTask now e (first, k) = { e with
              tasks :=
                e.tasks.set k { first with status := .timedOut } ++ [replacement first] } := by
            rw [timeoutTask, if_pos ⟨hp, by rw [hsecs]; exact hlate⟩,
              List.modify_eq_set_getElem?, hfirst]
            rfl
          rw [hbody]
          refine ih (k + 1) _ hsecs ?_ ?_
          · intro j task hj
            obtain ⟨hold, hlate'⟩ := hrest (j + 1) task (by simpa using hj)
            have hidx : k + (j + 1) = k + 1 + j := by omega
            rw [hidx] at hold hlate'
            have hlt := lt_length_of_getElem? hold
            refine ⟨?_, hlate'⟩
            rw [List.getElem?_append_left (by rw [List.length_set]; exact hlt),
              List.getElem?_set_ne (by omega), hold]
          · intro i task hi hs
            obtain hset | ⟨-, rfl⟩ := getElem?_snoc_eq_some.mp hi
            · obtain ⟨-, -, rfl⟩ | ⟨hne, hold⟩ := getElem?_set_eq_some.mp hset
              · simp at hs
              · have hrange := hbusy i task hold hs
                simp only [List.length_cons] at hrange
                omega
            · simp [replacement] at hs
        · rw [timeoutTask, if_neg fun hexp ↦ hp hexp.1]
          refine ih (k + 1) e hsecs ?_ ?_
          · intro j task hj
            have hidx : k + (j + 1) = k + 1 + j := by omega
            rw [← hidx]
            exact hrest (j + 1) task (by simpa using hj)
          · intro i task hi hs
            have hrange := hbusy i task hi hs
            have hne : i ≠ k := by
              rintro rfl
              rw [hfirst, Option.some.injEq] at hi
              exact hp (hi ▸ hs)
            simp only [List.length_cons] at hrange
            omega
  refine hloop c.tasks 0 c rfl ?_ ?_
  · intro j task hj
    rw [Nat.zero_add]
    exact ⟨hj, hnow j task hj⟩
  · intro i task hi _
    have hlt := lt_length_of_getElem? hi
    omega

/-- With no task in progress `timeoutTasks` has nothing to do. -/
theorem timeoutTasks_quiet (h : ∀ task ∈ c.tasks, task.status ≠ .inProgress) (now : Nat → Int) :
    c.timeoutTasks now = c := by
  obtain heq | ⟨d, hexpires, -⟩ := (c.timeoutTasks_cases now).cases_head
  · exact heq.symm
  · cases hexpires with
    | expire ht hs => exact absurd hs (h _ (List.mem_of_getElem? ht))

/-- While a task is idle, `GetTask` hands one out. -/
theorem getTask_found {w : Nat} (hw : w < c.workers.length)
    (hidle : ∃ task ∈ c.tasks, task.status = .idle) (now : Int) :
    ∃ (n : Nat) (task : Task) (workers : List WorkerInfo), c.tasks[n]? = some task ∧
      task.status = .idle ∧ workers.length = c.workers.length ∧
      c.getTask w now = some ({ c with
        tasks := c.tasks.set n { task with status := .inProgress, startTime := now }
        workers := workers }, ⟨task.files, c.nReduce, task.taskType, n⟩) := by
  obtain ⟨info, hinfo⟩ : ∃ info, c.workers[w]? = some info :=
    ⟨_, List.getElem?_eq_getElem hw⟩
  cases hfind : c.tasks.findIdx? (·.status = .idle) with
  | none =>
      obtain ⟨task, htask, hs⟩ := hidle
      have hno := List.findIdx?_eq_none_iff.mp hfind task htask
      simp [hs] at hno
  | some n =>
      obtain ⟨hlt, hs, -⟩ := List.findIdx?_eq_some_iff_getElem.mp hfind
      have htask := List.getElem?_eq_getElem hlt
      refine ⟨n, c.tasks[n], c.workers.set w { info with taskId := n }, htask, by simpa using hs,
        by simp, ?_⟩
      simp [getTask, hinfo, findIdleTask, hfind, htask]

end Coordinator

/-! ## What every state of a job has -/

namespace Job

variable {spec : JobSpec} {d₀ : Disk} {s t : Job} {w : Nat} {grows : Bool}

/-- The report of a live map attempt finds all its files. -/
theorem MapInv.renames (h : MapInv spec d₀ s) (hw : Wired spec d₀ s) {n i : Nat}
    {files : List GoString} {task : Task} (hpc : s.workers[w]? = some (.reporting n files))
    (htask : s.coord.tasks[n]? = some task) (ho : task.origin = .input i)
    (hst : task.status ≠ .timedOut) : ∃ e, renameTempFiles Disk.os s.disk files = (e, none) := by
  obtain ⟨hmine, hfirst, task', htask', hnodup, hnames⟩ := hw.busy w n _ hpc rfl
  rw [htask, Option.some.injEq] at htask'
  subst htask'
  rw [ho] at hnames
  have hp := hw.accounting.inProgress hmine hfirst htask hst
  have hrun := h.running (hw.accounting.created_of_input htask hp ho)
  have huncommitted : task.committed ≠ true := by
    rw [hw.accounting.uncommitted htask hp]
    decide
  obtain ⟨kvs, -, hholds⟩ := h.workers w n _ task hpc rfl htask hst ⟨i, ho⟩
  obtain ⟨e, he, -⟩ := hholds.rename hnodup hnames (h.no_output hrun htask huncommitted)
  exact ⟨e, he⟩

/-- No task is left to do. -/
def Over (s : Job) : Prop :=
  ∀ task ∈ s.coord.tasks, task.status ≠ .idle ∧ task.status ≠ .inProgress

/-- The map phase ends when `createReduceTasks` has run, a map task ends with a commit, and `Done`
has returned true only if no task is left. -/
structure Phased (s : Job) : Prop where
  phase : s.coord.created ≠ [] → s.coord.phase ≠ .map
  ended : ∀ task ∈ s.coord.tasks, ∀ i, task.origin = .input i →
    task.status = .completed ∨ task.status = .failed → task.committed = true
  settled : s.finished = true → s.Over

theorem Phased.init : Phased (Job.init spec d₀) := by
  constructor
  · exact fun hne ↦ absurd rfl hne
  · intro task htask i _ hs
    obtain ⟨j, file, -, rfl⟩ := CoordSys.mem_createMapTasks htask
    simp at hs
  · exact fun hfin ↦ absurd hfin (by simp [Job.init])

/-- When no task is left, every report is late. -/
theorem Over.late (h : s.Over) (hw : Wired spec d₀ s) {n : Nat} {it : Iteration GoString}
    {files : List GoString} {c : Coordinator} {e : Disk} {err : Option GoString}
    (hpc : s.workers[w]? = some (.reporting n files))
    (hdone : Coordinator.TaskDone Disk.os it s.coord s.disk n files c e err) : c = s.coord := by
  obtain ⟨hgiven, hfirst, task, htask, -⟩ := hw.busy w n _ hpc rfl
  by_cases hst : task.status = .timedOut
  · exact (hdone.of_timedOut htask hst).1
  · have hp := hw.accounting.inProgress hgiven hfirst htask hst
    exact absurd hp (h task (List.mem_of_getElem? htask)).2

theorem Phased.report (h : Phased s) (hw : Wired spec d₀ s) (hm : MapInv spec d₀ s) {n : Nat}
    {it : Iteration GoString} {files : List GoString} {c : Coordinator} {e : Disk}
    {err : Option GoString} (hpc : s.workers[w]? = some (.reporting n files))
    (hdone : Coordinator.TaskDone Disk.os it s.coord s.disk n files c e err) :
    (c.created ≠ [] → c.phase ≠ .map) ∧ ∀ task ∈ c.tasks, ∀ i, task.origin = .input i →
      task.status = .completed ∨ task.status = .failed → task.committed = true := by
  have hset : ∀ {row : Task}, ((∃ i, row.origin = .input i) → row.committed = true) →
      ∀ task ∈ s.coord.tasks.set n row, ∀ i, task.origin = .input i →
        task.status = .completed ∨ task.status = .failed → task.committed = true :=
    fun hrow ↦ forall_mem_set h.ended fun i ho _ ↦ hrow ⟨i, ho⟩
  cases hdone with
  | late ht hs hremove => exact ⟨h.phase, h.ended⟩
  | failed ht hs hty hrename =>
      refine ⟨h.phase, hset ?_⟩
      rintro ⟨i, ho⟩
      -- the renames of a map attempt cannot fail
      obtain ⟨e, he⟩ := hm.renames hw hpc ht ho hs
      rw [he] at hrename
      simp at hrename
  | mapped ht hs hty hrename hnum => exact ⟨h.phase, hset fun _ ↦ rfl⟩
  | lastMapped ht hs hty hrename hnum hglob hgroup =>
      refine ⟨fun _ ↦ by simp, ?_⟩
      intro task htask
      obtain hold | hnew := List.mem_append.mp htask
      · exact hset (fun _ ↦ rfl) task hold
      · obtain ⟨entry, -, rfl⟩ := List.mem_map.mp hnew
        intro i ho
        cases ho
  | lastFailed ht hs hty hrename hnum hglob => simp [Disk.os, Disk.glob] at hglob
  | reduced ht hs hty hrename hphase =>
      refine ⟨fun hne ↦ ?_, hset fun _ ↦ rfl⟩
      subst hphase
      dsimp only
      split
      · simp
      · exact h.phase hne
  | other ht hs hty =>
      have htyped := hw.accounting.rows.typed (List.mem_of_getElem? ht)
      refine ⟨h.phase, hset ?_⟩
      rintro ⟨i, ho⟩
      rw [ho] at htyped
      exact absurd htyped hty.1

theorem Phased.step {act : JobAction} (h : Phased s) (hw : Wired spec d₀ s)
    (hm : MapInv spec d₀ s) (hs : s.step spec act = some t) : Phased t := by
  cases step_cases hs with
  | registerWorker => exact ⟨h.phase, h.ended, h.settled⟩
  | getTask hpc hget =>
      obtain ⟨c, hc, rfl⟩ := CoordSys.getTask_eq_some.mp hget
      cases (Coordinator.getTask_cases hc).1 with
      | nothing => exact ⟨h.phase, h.ended, h.settled⟩
      | found ht hidle =>
          refine ⟨h.phase, forall_mem_set h.ended fun _ _ hs ↦ by simp at hs, ?_⟩
          -- after the job is over no task is idle
          exact fun hfin ↦ absurd hidle (h.settled hfin _ (List.mem_of_getElem? ht)).1
  | advance hpc hadv hun => exact ⟨h.phase, h.ended, h.settled⟩
  | taskDone hpc hdone hnext hsnap =>
      have hcases := (CoordSys.taskDone_given hdone).2.2
      obtain ⟨hphase, hended⟩ := h.report hw hm hpc hcases
      refine ⟨hphase, hended, fun hfin ↦ ?_⟩
      unfold Over
      rw [show Job.coord _ = s.coord from (h.settled hfin).late hw hpc hcases]
      exact h.settled hfin
  | heartbeat => exact ⟨h.phase, h.ended, h.settled⟩
  | @stopRunning b hb =>
      obtain ⟨hphase, hended, hsettled⟩ := h
      constructor
      · change (s.sys.stopRunning b).coord.created ≠ [] → (s.sys.stopRunning b).coord.phase ≠ .map
        rw [s.sys.created_stopRunning, s.sys.phase_stopRunning]
        exact hphase
      · intro task htask
        exact hended task (s.sys.tasks_stopRunning b ▸ htask)
      · intro hfin task htask
        exact hsettled hfin task (s.sys.tasks_stopRunning b ▸ htask)
  | @done now c e result hdone =>
      have hw' := hw.step hs
      obtain ⟨rfl, hresult⟩ := Coordinator.done_cases hdone
      refine ⟨?_, ?_, ?_⟩
      · obtain ⟨tasks, heq⟩ := s.coord.timeoutTasks_eq now
        change (s.coord.timeoutTasks now).created ≠ [] → (s.coord.timeoutTasks now).phase ≠ .map
        rw [heq]
        exact h.phase
      · intro task htask i ho hs
        obtain hold | htimed | hidle := Coordinator.mem_timeoutTasks htask
        · exact h.ended task hold i ho hs
        · simp [htimed] at hs
        · simp [hidle] at hs
      · intro hfin
        obtain ⟨rfl, -⟩ | ⟨-, hsettled, -⟩ := hresult
        · have hover := h.settled (by simpa using hfin)
          unfold Over
          change ∀ task ∈ (s.coord.timeoutTasks now).tasks, _
          -- nothing is in progress any more that could time out
          rw [Coordinator.timeoutTasks_quiet fun task htask ↦ (hover task htask).2]
          exact hover
        · exact fun task htask ↦ hw'.accounting.ended hsettled htask
  | crash => exact ⟨h.phase, h.ended, h.settled⟩

theorem phased_of_reaches (hclean : CleanStart d₀)
    (h : Reaches (Job.step spec) (Job.init spec d₀) s) : Phased s :=
  h.invariant Phased.init fun _ _ _ hr hs hu ↦
    hu.step (wired_of_reaches hr) (mapInv_of_reaches hclean hr) hs

theorem told_length (h : Reaches (Job.step spec) (Job.init spec d₀) s) :
    s.coord.workers.length = s.workers.length := by
  simpa [Coordinator.running] using (told_of_reaches h).length

/-- The map output that a reduce task is given can be parsed. -/
theorem SnapInv.parses (h : SnapInv spec d₀ s) (hw : Wired spec d₀ s) (hrun : s.finished = false)
    (hinputs : ∀ f ∈ spec.inputs, ¬ Reserved f)
    (hplain : ∀ n, ∀ f ∈ spec.inputs, ∀ content, d₀.read f = some content →
      ∀ kv ∈ spec.mapf n f content, kv.Plain)
    {task : Task} {r : GoString} (htask : task ∈ s.coord.tasks) (ho : task.origin = .partition r) :
    ∀ f ∈ task.files, (s.disk.read f).bind parseContent ≠ none := by
  have hopen := (hw.accounting.rows.opened (.partition r)).mp (List.mem_map.mpr ⟨task, htask, ho⟩)
  have hne : s.snapshot ≠ none := by
    intro hnone
    simp [Opened, show s.sys.coord.created = [] from h.none_iff.mp hnone] at hopen
  obtain ⟨d, hd⟩ := Option.ne_none_iff_exists'.mp hne
  have hfound := h.found d hd
  intro f hf
  rw [hfound.files task htask r ho] at hf
  obtain ⟨hread, hglob, -⟩ := mem_reduceFiles.mp hf
  -- the file is the part of a map attempt that committed
  obtain ⟨n, k, row, i, rfl, hrow, hi, hc⟩ := hfound.only f (glob_starts hglob) hread
  obtain ⟨kvs, hemitted, htext⟩ := hfound.committed n row i hrow hi hc
  obtain ⟨file, content, hfile, hcontent, rfl⟩ := hemitted hinputs
  have hmem : file ∈ spec.inputs := by
    have hfits := hw.accounting.rows.fits row (List.mem_of_getElem? hrow)
    rw [Task.Fits, hi] at hfits
    obtain ⟨-, file', hfile', hfiles⟩ := hfits
    rw [hfile, List.singleton_inj] at hfiles
    exact hfiles ▸ List.mem_of_getElem? hfile'
  rw [htext] at hread
  rw [h.stable hrun hd (mapFileName_starts n k), htext, mapText,
    if_neg (mapText_ne_none.mp hread), Option.bind_some, parseContent_records]
  · simp
  · intro kv hkv
    exact hplain n file hmem content hcontent kv (List.mem_filter.mp hkv).1

/-! ## One more worker -/

/-- What the worker with index `w` does, its registration included, and the polls of `Done`; `grows`
says whether its registration makes a new array of workers. -/
def newcomer (w : Nat) (grows : Bool) (s : Job) : JobAction → Bool
  | .registerWorker g => s.workers.length = w ∧ g = grows
  | .getTask v _ | .advance v _ | .taskDone v _ => v = w
  | .done _ => true
  | .heartbeat _ | .stopRunning _ | .crash _ => false

/-- What a worker does by itself it does in a job in which nobody else moves. -/
theorem advances {pc : WorkerPc} (hpc : s.workers[w]? = some pc) {b : WorkerPc × Disk}
    (hgoes : Relation.ReflTransGen (WorkerPc.Goes spec) (pc, s.disk) b) :
    ∃ t, Reaches (restrict (Job.step spec) (newcomer w grows)) s t ∧
      t.sys = { s.sys with fs := b.2 } ∧ t.workers = s.workers.set w b.1 ∧
      t.finished = s.finished := by
  induction hgoes with
  | refl =>
      refine ⟨s, Reaches.refl s, rfl, ?_, rfl⟩
      simpa using (map_set_eq id hpc rfl).symm
  | @tail b b' _ hlast ih =>
      obtain ⟨t, hreach, hsys, hworkers, hfinished⟩ := ih
      obtain ⟨it, hadv⟩ := hlast
      have hb : t.workers[w]? = some b.1 := by
        rw [hworkers]
        exact List.getElem?_set_self (lt_length_of_getElem? hpc)
      have hdisk : t.disk = b.2 := by
        rw [Job.disk, hsys]
      rw [← hdisk] at hadv
      have hstep : t.step spec (.advance w it) = some _ := step_advance hb hadv.call
      have hguard : newcomer w grows t (.advance w it) = true := decide_eq_true rfl
      refine ⟨_, hreach.snoc (restrict_eq_some.mpr ⟨hguard, hstep⟩), ?_, ?_, hfinished⟩
      · dsimp only
        rw [hsys]
      · dsimp only
        rw [hworkers, List.set_set]

/-- `createReduceTasks` finds a reducer id in every name. -/
theorem groupFiles_exists {e : Disk} {names : List GoString}
    (hglob : e.glob (lit "m-out-*-*") = .ok names)
    (honly : ∀ name, lit "m-out-" <+: name → e.read name ≠ none → ∃ k r, name = mapFileName k r) :
    ∃ m, groupFiles names = some m := by
  have hid : ∀ name ∈ names, (reduceIdOf name).map (·, name) =
      some ((reduceIdOf name).getD [], name) := by
    intro name hname
    obtain ⟨hread, hmatch⟩ := (Disk.mem_glob hglob).mp hname
    obtain ⟨k, r, rfl⟩ := honly name (glob_starts hmatch) hread
    rw [reduceIdOf_mapFileName]
    rfl
  exact ⟨_, by rw [groupFiles, mapM_eq_map hid, Option.map_some]⟩

/-- The report of a live reduce attempt that left its file alone. -/
theorem MapInv.renames_reduce (h : MapInv spec d₀ s) (hw : Wired spec d₀ s) {n : Nat}
    {r : GoString} {files : List GoString} {task : Task}
    (hpc : s.workers[w]? = some (.reporting n files)) (htask : s.coord.tasks[n]? = some task)
    (ho : task.origin = .partition r) (hmade : ∀ f ∈ files, s.disk.read f ≠ none) :
    ∃ e, renameTempFiles Disk.os s.disk files = (e, none) := by
  obtain ⟨-, -, task', htask', hnodup, hnames⟩ := hw.busy w n _ hpc rfl
  rw [htask, Option.some.injEq] at htask'
  subst htask'
  rw [ho] at hnames
  have hopen := (hw.accounting.rows.opened (.partition r)).mp
    (List.mem_map.mpr ⟨task, List.mem_of_getElem? htask, ho⟩)
  obtain ⟨k, rfl⟩ := h.ids r hopen
  match files with
  | [] => exact ⟨s.disk, rfl⟩
  | [f] =>
      obtain rfl := hnames f (List.mem_singleton.mpr rfl)
      obtain ⟨text, htext⟩ := Option.ne_none_iff_exists'.mp (hmade _ (List.mem_singleton.mpr rfl))
      obtain ⟨e, he, -⟩ := renameTempFiles_reduceOutName htext
      exact ⟨e, he⟩
  | f :: g :: rest =>
      have hf := hnames f List.mem_cons_self
      have hg := hnames g (List.mem_cons_of_mem _ List.mem_cons_self)
      rw [hf, hg] at hnodup
      simp at hnodup

/-- A report of a live attempt whose files are there commits the task. -/
theorem commits (hw : Wired spec d₀ s) (hm : MapInv spec d₀ s) {n : Nat} {files : List GoString}
    {task : Task} (hpc : s.workers[w]? = some (.reporting n files))
    (htask : s.coord.tasks[n]? = some task) (hp : task.status = .inProgress)
    (hmade : ∀ f ∈ files, s.disk.read f ≠ none) :
    ∃ (c : Coordinator) (e : Disk) (new : List Task),
      Coordinator.TaskDone Disk.os (.stored _) s.coord s.disk n files c e none ∧
      c.workers = s.coord.workers ∧
      c.tasks = (s.coord.complete n task true).tasks ++ new ∧ (∀ x ∈ new, x.status = .idle) ∧
      (new = [] ∧ c.created = s.coord.created ∨ s.coord.created = [] ∧ c.created ≠ []) := by
  have hlive : task.status ≠ .timedOut := by simp [hp]
  have htyped := hw.accounting.rows.typed (List.mem_of_getElem? htask)
  cases ho : task.origin with
  | partition r =>
      obtain ⟨e, he⟩ := hm.renames_reduce hw hpc htask ho hmade
      rw [ho] at htyped
      exact ⟨_, e, [], .reduced htask hlive htyped he rfl, rfl, (List.append_nil _).symm,
        List.forall_mem_nil _, .inl ⟨rfl, rfl⟩⟩
  | input i =>
      obtain ⟨e, he⟩ := hm.renames hw hpc htask ho hlive
      rw [ho] at htyped
      by_cases hnum : s.coord.numMapTasks - 1 = 0
      · have hnone := hw.accounting.created_of_input htask hp ho
        -- the listing has the files of the tasks that committed before, and those of this one
        have honly : ∀ name, lit "m-out-" <+: name → e.read name ≠ none →
            ∃ k r, name = mapFileName k r := by
          intro name hpre hne
          by_cases hnew : name ∈ files.map newName
          · obtain ⟨f, hf, rfl⟩ := List.mem_map.mp hnew
            obtain ⟨-, -, row, hrow, -, hnames⟩ := hw.busy w n _ hpc rfl
            rw [htask, Option.some.injEq] at hrow
            rw [← hrow, ho] at hnames
            obtain ⟨r, rfl⟩ := hnames f hf
            exact ⟨n, r, by rw [newName, rename_mapOutName]⟩
          · have hold : name ∉ files :=
              fun hmem ↦ temp_not_map (hw.reported_temp hpc name hmem) hpre
            rw [read_renameTempFiles_of_notMem he hold hnew] at hne
            obtain ⟨k, r, -, -, hname, -⟩ := hm.only (hm.running hnone) name hpre hne
            exact ⟨k, r, hname⟩
        cases hglob : e.glob (lit "m-out-*-*") with
        | error err => simp [Disk.glob] at hglob
        | ok names =>
            obtain ⟨m, hgroup⟩ := groupFiles_exists hglob honly
            refine ⟨_, e, (m.range (.stored _)).map reduceTask,
              .lastMapped htask hlive htyped he hnum hglob hgroup, rfl, rfl, ?_, .inr ⟨hnone, ?_⟩⟩
            · intro x hx
              obtain ⟨entry, -, rfl⟩ := List.mem_map.mp hx
              rfl
            · simp
      · exact ⟨_, e, [], .mapped htask hlive htyped he hnum, rfl, (List.append_nil _).symm,
          List.forall_mem_nil _, .inl ⟨rfl, rfl⟩⟩

end Job

end GoLabs.MapReduce
