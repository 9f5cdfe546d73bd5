/-
Module: OsSim.SchedulerTally
Purpose: How many processes the scheduler accounts for, and where each of them
  is: what every scheduler function keeps, and what it keeps as long as signals
  are charged to their sender.
Trusted boundary: none
Main exports:
  Scheduler.inHand, Tally, Roster, Settled, Overtaken, Tally.receivePcb,
  Tally.scheduleNextProcess, Tally.handleQuantumExpiration,
  Tally.runningDecision, Tally.handleProcessTick,
  Tally.handleProcessTermination
-/
import OsSim.SchedulerSpec

namespace OsSim

open PointerMemory

/-! ### Two levels of accounts

A signal handler works on the current process, but takes the front of the ready
queue to be that process.  Where it is not, the handler re-keys or removes
another one, and from then on the queue is wrong about which processes wait.  It
is never wrong about how many there are.  So there are two invariants.  `Tally`
holds in every run: the sizes fit, and a child that has ended has been logged
once.  `Roster` holds as long as every signal has been charged to its sender:
each process is in one place, and the remaining times are those of the children.
Whether the next signal will be charged rightly depends on the front of the
queue, which `Settled` and `Overtaken` describe.
-/

/-- The current process where it is not in the ready queue, which is so under
HPF. -/
def Scheduler.inHand (s : Scheduler) : List Addr :=
  if s.selectedAlgorithm = .hpf then s.currentPcb.toList else []

/-- The scheduler and its children fit together: there is a child for each
control block, a child that has ended is a finished process, logged once, and
the ready queue, the process in hand and the finished ones are as many as there
are control blocks. -/
structure Tally (s : Scheduler) (children : List Int) (items : List Addr) :
    Prop where
  wired : s.Wired items
  counted : children.length = s.received
  bounds : ∀ n ∈ children, 0 ≤ n ∧ n < 2 ^ 31
  ended : ∀ a n, children[a]? = some n → (n = 0 ↔ a ∈ s.finished)
  once : s.finished.Nodup
  old : ∀ a ∈ s.finished, a < s.received
  member : s.selectedAlgorithm ≠ .hpf → ∀ a, s.currentPcb = some a → a ∈ items
  total : items.length + s.inHand.length + s.finished.length = s.received

/-- The key of a control block in the heap. -/
def Scheduler.sortKey (s : Scheduler) (a : Addr) : Int :=
  wrap (-(s.remaining a).getD 0)

/-- Every signal so far was charged to its sender: no process is in two places,
the remaining times are those of the children, and the heap is keyed by them. -/
structure Roster (s : Scheduler) (children : List Int) (items : List Addr) :
    Prop where
  tally : Tally s children items
  apart : (items ++ s.inHand ++ s.finished).Nodup
  exact : s.selectedAlgorithm ≠ .rr → ∀ a n, children[a]? = some n →
    s.remaining a = some n
  keyed : s.selectedAlgorithm = .srtn → KeyedBy s.readyQueue s.sortKey

/-- Under RR and SRTN the current process is in front of the ready queue. -/
def Settled (s : Scheduler) (items : List Addr) : Prop :=
  s.selectedAlgorithm ≠ .hpf → ∀ a, s.currentPcb = some a →
    items.head? = some a

/-- Under RR and SRTN the items begin with the current process. -/
theorem Settled.split {s : Scheduler} {items : List Addr}
    (settled : Settled s items) (preemptive : s.selectedAlgorithm ≠ .hpf)
    {a : Addr} (runs : s.currentPcb = some a) : ∃ rest, items = a :: rest :=
  List.head?_eq_some_iff.mp (settled preemptive a runs)

/-- Under SRTN a process of the ready queue has less time left than the current
one. -/
def Overtaken (s : Scheduler) (items : List Addr) : Prop :=
  s.selectedAlgorithm = .srtn ∧ ∃ a b m n, s.currentPcb = some a ∧ b ∈ items ∧
    s.remaining a = some n ∧ s.remaining b = some m ∧ m < n

/-- As many pairwise distinct numbers below `n` as there are cover them all. -/
theorem mem_of_lt_of_nodup {places : List Addr} {n : Nat}
    (nodup : places.Nodup) (below : ∀ a ∈ places, a < n)
    (full : places.length = n) {a : Addr} (inside : a < n) : a ∈ places := by
  have subset : places ⊆ List.range n :=
    fun b member => List.mem_range.mpr (below b member)
  have perm := (List.subperm_of_subset nodup subset).perm_of_length_le
    (by rw [List.length_range, full])
  exact perm.mem_iff.mpr (List.mem_range.mpr inside)

/-- A control block as `fork_and_send` makes it, with a runtime that is an
`int`. -/
structure Sent (pcb : PCB) : Prop where
  fresh : pcb.remainingTime = pcb.pdata.runtime
  inRange : pcb.pdata.runtime < 2 ^ 31

theorem sent_newPcb (pid : Int) {proc : Process} (inRange : InRange proc.runtime) :
    Sent (newPcb pid proc) := ⟨rfl, inRange.2⟩

instance (pcb : PCB) : Decidable (Sent pcb) :=
  decidable_of_iff
    (pcb.remainingTime = pcb.pdata.runtime ∧ pcb.pdata.runtime < 2 ^ 31)
    ⟨fun both => ⟨both.1, both.2⟩, fun sent => ⟨sent.fresh, sent.inRange⟩⟩

/-- A process that arrives at 0, as the sample runs of the scheduler use it. -/
def sampleJob (id runtime priority : Int) : PCB :=
  newPcb (100 + id)
    { id := id, arrivalTime := 0, runtime := runtime, priority := priority,
      memorySize := 1 }

theorem enqueuePriority_srtn {algorithm : SchedulingAlgorithm}
    (srtn : algorithm = .srtn) (pcb : PCB) :
    enqueuePriority algorithm pcb = pcb.remainingTime := by
  rw [srtn]
  rfl

/-- Among times in the range of `int` the heap puts the shorter one first. -/
theorem lt_of_outranks {m n : Int} (first : 0 ≤ m ∧ m < 2 ^ 31)
    (second : 0 ≤ n ∧ n < 2 ^ 31)
    (higher : 0 < wrap (wrap (-m) - wrap (-n))) : m < n := by
  have left : InRange (-m) := by
    constructor <;> omega
  have right : InRange (-n) := by
    constructor <;> omega
  have difference : InRange (-m - -n) := by
    constructor <;> omega
  rw [wrap_of_inRange left, wrap_of_inRange right,
    wrap_of_inRange difference] at higher
  omega

namespace Scheduler

variable {s s' : Scheduler} {a : Addr}

theorem lt_received {pcb : PCB} (live : s.pcbs.load a = some pcb) :
    a < s.received := Mem.lt_length_of_load live

theorem mem_inHand : a ∈ s.inHand ↔
    s.selectedAlgorithm = .hpf ∧ s.currentPcb = some a := by
  rw [inHand]
  split
  next hpf => simp [hpf]
  next other => simp [other]

theorem inHand_congr (algorithm : s'.selectedAlgorithm = s.selectedAlgorithm)
    (current : s'.currentPcb = s.currentPcb) : s'.inHand = s.inHand := by
  rw [inHand, inHand, algorithm, current]

theorem inHand_none (idle : s.currentPcb = none) : s.inHand = [] := by
  rw [inHand, idle]
  split <;> rfl

/-- The keys are those of the remaining times. -/
theorem sortKey_eq {n : Int} (own : s.remaining a = some n) :
    s.sortKey a = wrap (-n) := by
  rw [sortKey, own, Option.getD_some]

theorem sortKey_congr (same : s'.remaining a = s.remaining a) :
    s'.sortKey a = s.sortKey a := by
  rw [sortKey, sortKey, same]

end Scheduler

namespace Tally

variable {s : Scheduler} {children : List Int} {items : List Addr}

theorem lt_of_mem (tally : Tally s children items) {a : Addr}
    (member : a ∈ items) : a < s.received := by
  obtain ⟨pcb, live⟩ := tally.wired.live a member
  exact Scheduler.lt_received live

theorem lt_of_inHand (tally : Tally s children items) {a : Addr}
    (member : a ∈ s.inHand) : a < s.received := by
  obtain ⟨pcb, live⟩ := tally.wired.running a (Scheduler.mem_inHand.mp member).2
  exact Scheduler.lt_received live

theorem remaining_some (tally : Tally s children items) {a : Addr}
    (member : a ∈ items) : ∃ n, s.remaining a = some n := by
  obtain ⟨pcb, live⟩ := tally.wired.live a member
  exact ⟨pcb.remainingTime, by rw [Scheduler.remaining, live, Option.map_some]⟩

/-- The next control block is a new process. -/
theorem new_not_mem (tally : Tally s children items) :
    s.received ∉ items ++ s.inHand ++ s.finished := by
  intro member
  rcases List.mem_append.mp member with waiting | done
  · rcases List.mem_append.mp waiting with queued | held
    · exact Nat.lt_irrefl _ (tally.lt_of_mem queued)
    · exact Nat.lt_irrefl _ (tally.lt_of_inHand held)
  · exact Nat.lt_irrefl _ (tally.old _ done)

/-- A control block shows the same remaining time after the next one is made. -/
theorem remaining_malloc {s s' : Scheduler} {pcb : PCB}
    (made : s'.pcbs = (s.pcbs.malloc pcb).1) {a : Addr} {n : Int}
    (own : s.remaining a = some n) : s'.remaining a = some n := by
  obtain ⟨old, loaded, _⟩ := Option.map_eq_some_iff.mp own
  rw [Scheduler.remaining, made, Mem.load_malloc_of_live loaded, ← loaded]
  exact own

theorem remaining_malloc_new {s s' : Scheduler} {pcb : PCB}
    (made : s'.pcbs = (s.pcbs.malloc pcb).1) :
    s'.remaining s.received = some pcb.remainingTime := by
  have loaded : (s.pcbs.malloc pcb).1.load s.received = some pcb :=
    Mem.load_malloc_self s.pcbs pcb
  rw [Scheduler.remaining, made, loaded, Option.map_some]

/-- A child after one more has come is an old one or the new one. -/
theorem child_cases {runtime : Int} {a : Addr} {n : Int}
    (found : (children ++ [runtime])[a]? = some n) :
    children[a]? = some n ∨ (a = children.length ∧ n = runtime) := by
  rcases Nat.lt_or_ge a children.length with old | new
  · rw [List.getElem?_append_left old] at found
    exact Or.inl found
  · rw [List.getElem?_append_right new, List.getElem?_singleton] at found
    split at found
    next first =>
      rw [Option.some.injEq] at found
      exact Or.inr
        ⟨Nat.le_antisymm (Nat.le_of_sub_eq_zero first) new, found.symm⟩
    next => cases found

/-- A process that enters the queue is one more in the accounts. -/
theorem enters (tally : Tally s children items) {pcb : PCB} (sent : Sent pcb)
    (positive : 0 < pcb.pdata.runtime) {s' : Scheduler} {items' : List Addr}
    (wired : s'.Wired items') (perm : items'.Perm (s.received :: items))
    (made : s'.pcbs = (s.pcbs.malloc pcb).1)
    (current : s'.currentPcb = s.currentPcb)
    (algorithm : s'.selectedAlgorithm = s.selectedAlgorithm)
    (done : s'.finished = s.finished) :
    Tally s' (children ++ [pcb.pdata.runtime]) items' := by
  have grown : s'.received = s.received + 1 := by
    rw [Scheduler.received, made]
    exact Mem.length_malloc s.pcbs pcb
  have hand : s'.inHand = s.inHand := Scheduler.inHand_congr algorithm current
  have unfinished : s.received ∉ s.finished :=
    fun member => Nat.lt_irrefl _ (tally.old _ member)
  have length : items'.length = items.length + 1 := by
    rw [perm.length_eq, List.length_cons]
  refine ⟨wired, ?_, ?_, ?_, ?_, ?_, ?_, ?_⟩
  · rw [List.length_append, tally.counted, grown, List.length_singleton]
  · intro n member
    rcases List.mem_append.mp member with old | new
    · exact tally.bounds n old
    · rw [List.mem_singleton.mp new]
      exact ⟨Int.le_of_lt positive, sent.inRange⟩
  · intro a n found
    rw [done]
    rcases child_cases found with old | ⟨new, runtime⟩
    · exact tally.ended a n old
    · rw [new, runtime, tally.counted]
      constructor
      · intro zero
        omega
      · intro member
        exact absurd member unfinished
  · rw [done]
    exact tally.once
  · intro a member
    rw [done] at member
    rw [grown]
    exact Nat.lt_succ_of_lt (tally.old a member)
  · intro other a runs
    rw [algorithm] at other
    rw [current] at runs
    exact perm.mem_iff.mpr
      (List.mem_cons_of_mem _ (tally.member other a runs))
  · rw [length, hand, done, grown, ← tally.total]
    omega

/-- After a process has entered the queue the current one is still at its front,
or has more time left than the new one. -/
theorem settled_or_overtaken (roster : Roster s children items)
    (settled : Settled s items) {pcb : PCB} (sent : Sent pcb)
    (positive : 0 < pcb.pdata.runtime) {s' : Scheduler} {items' : List Addr}
    (wired : s'.Wired items') (perm : items'.Perm (s.received :: items))
    (made : s'.pcbs = (s.pcbs.malloc pcb).1)
    (current : s'.currentPcb = s.currentPcb)
    (algorithm : s'.selectedAlgorithm = s.selectedAlgorithm)
    (run : s.readyQueue.enqueue s.received
      (enqueuePriority s.selectedAlgorithm pcb) = .ok s'.readyQueue)
    (head : s.selectedAlgorithm = .rr → items ≠ [] →
      items'.head? = items.head?) :
    Settled s' items' ∨ Overtaken s' items' := by
  have tally := roster.tally
  have own : s'.remaining s.received = some pcb.pdata.runtime := by
    rw [remaining_malloc_new made, sent.fresh]
  by_cases overtaken : Overtaken s' items'
  · exact Or.inr overtaken
  · refine Or.inl (fun other a runs => ?_)
    rw [algorithm] at other
    rw [current] at runs
    obtain ⟨rest, rfl⟩ := settled.split other runs
    cases selected : s.selectedAlgorithm with
    | hpf => exact absurd selected other
    | rr => exact head selected (List.cons_ne_nil _ _)
    | srtn =>
        have child := List.getElem?_eq_getElem
          (tally.counted.symm ▸ tally.lt_of_mem List.mem_cons_self)
        have before := roster.exact (by simp [selected]) a _ child
        rcases tally.wired.shows.enqueue_front (roster.keyed selected) run
            wired.shows with kept | ⟨_, higher⟩
        · exact kept
        · refine absurd ⟨algorithm.trans selected, a, s.received, _, _,
            current.trans runs, ?_, remaining_malloc made before, own, ?_⟩
            overtaken
          · exact perm.mem_iff.mpr List.mem_cons_self
          · rw [Scheduler.sortKey_eq before, enqueuePriority_srtn selected,
              sent.fresh] at higher
            exact lt_of_outranks ⟨Int.le_of_lt positive, sent.inRange⟩
              (tally.bounds _ (List.getElem_mem _)) higher

/-- A valid message adds a process and its child. -/
theorem receivePcb (tally : Tally s children items) {pcb : PCB} (sent : Sent pcb)
    (valid : validPcb pcb = true) :
    ∃ s' items', s.receivePcb pcb = .ok (s', true) ∧
      Tally s' (children ++ [pcb.pdata.runtime]) items' ∧
      s'.selectedAlgorithm = s.selectedAlgorithm ∧
      s'.noMoreProcesses = s.noMoreProcesses ∧
      s'.currentPcb = s.currentPcb ∧ s'.pcbs = (s.pcbs.malloc pcb).1 ∧
      (Roster s children items →
        Roster s' (children ++ [pcb.pdata.runtime]) items' ∧
        (Settled s items → Settled s' items' ∨ Overtaken s' items') ∧
        (Overtaken s items → Overtaken s' items')) := by
  obtain ⟨queue', items', run, received, wired, perm, head⟩ :=
    tally.wired.receivePcb valid
  let s' : Scheduler := { s with
    pcbs := (s.pcbs.malloc pcb).1
    readyQueue := queue' }
  have positive : 0 < pcb.pdata.runtime := by
    rw [validPcb, decide_eq_true_iff] at valid
    omega
  have hand : s'.inHand = s.inHand := Scheduler.inHand_congr rfl rfl
  have done : s'.finished = s.finished := rfl
  have tally' : Tally s' (children ++ [pcb.pdata.runtime]) items' :=
    tally.enters sent positive wired perm rfl rfl rfl rfl
  refine ⟨s', items', received, tally', rfl, rfl, rfl, rfl, fun roster => ?_⟩
  have own : s'.remaining s.received = some pcb.pdata.runtime := by
    rw [remaining_malloc_new rfl, sent.fresh]
  have keep : ∀ a n, s.remaining a = some n → s'.remaining a = some n :=
    fun _ _ before => remaining_malloc rfl before
  refine ⟨⟨tally', ?_, ?_, ?_⟩, fun settled => settled_or_overtaken roster
    settled sent positive wired perm rfl rfl rfl run head, ?_⟩
  · have moved : (items' ++ s'.inHand ++ s'.finished).Perm
        (s.received :: (items ++ s.inHand ++ s.finished)) := by
      rw [hand, done, ← List.cons_append, ← List.cons_append]
      exact (perm.append_right _).append_right _
    exact moved.nodup_iff.mpr
      (List.nodup_cons.mpr ⟨tally.new_not_mem, roster.apart⟩)
  · intro other a n found
    rcases child_cases found with old | ⟨new, runtime⟩
    · exact keep a n (roster.exact other a n old)
    · rw [new, runtime, tally.counted, own]
  · intro srtn
    have keyed : KeyedBy s.readyQueue s'.sortKey := by
      apply (roster.keyed srtn).congr tally.wired.shows
      intro a member
      obtain ⟨n, before⟩ := tally.remaining_some member
      exact Scheduler.sortKey_congr ((keep a n before).trans before.symm)
    apply keyed.enqueue _ run
    intro _
    rw [Scheduler.sortKey_eq own, enqueuePriority_srtn srtn, sent.fresh]
  · rintro ⟨srtn, a, b, m, n, runs, member, first, second, less⟩
    exact ⟨srtn, a, b, m, n, runs,
      perm.mem_iff.mpr (List.mem_cons_of_mem _ member), keep a n first,
      keep b m second, less⟩

/-- Moving processes between the queue and the hand of the scheduler keeps the
accounts. -/
theorem keep (tally : Tally s children items) {s' : Scheduler}
    {items' : List Addr} (frame : s.Frame s') (wired : s'.Wired items')
    (log : s'.finished = s.finished)
    (member : s.selectedAlgorithm ≠ .hpf → ∀ a, s'.currentPcb = some a →
      a ∈ items')
    (parts : (items' ++ s'.inHand).Perm (items ++ s.inHand)) :
    Tally s' children items' ∧
      ((s.selectedAlgorithm ≠ .rr → ∀ a, s'.remaining a = s.remaining a) →
        (s.selectedAlgorithm = .srtn → s'.readyQueue = s.readyQueue) →
        Roster s children items → Roster s' children items') := by
  have length : items'.length + s'.inHand.length =
      items.length + s.inHand.length := by
    rw [← List.length_append, ← List.length_append, parts.length_eq]
  have tally' : Tally s' children items' := by
    refine ⟨wired, ?_, tally.bounds, ?_, ?_, ?_, ?_, ?_⟩
    · rw [frame.received, tally.counted]
    · rw [log]
      exact tally.ended
    · rw [log]
      exact tally.once
    · rw [log, frame.received]
      exact tally.old
    · rw [frame.algorithm]
      exact member
    · rw [length, log, frame.received]
      exact tally.total
  refine ⟨tally', fun same queue roster => ⟨tally', ?_, ?_, ?_⟩⟩
  · rw [log]
    exact (parts.append_right _).nodup_iff.mpr roster.apart
  · intro other a n found
    rw [frame.algorithm] at other
    rw [same other]
    exact roster.exact other a n found
  · intro srtn
    rw [frame.algorithm] at srtn
    have other : s.selectedAlgorithm ≠ .rr := by
      rw [srtn]
      decide
    rw [queue srtn]
    exact (roster.keyed srtn).congr tally.wired.shows
      (fun a _ => Scheduler.sortKey_congr (same other a))

/-- Scheduling moves the front process into the hand of the scheduler under HPF,
and makes it current in its place otherwise. -/
theorem scheduleNextProcess (tally : Tally s children items)
    (idle : s.currentPcb = none) (clk log : Int) :
    ∃ s' items', s.scheduleNextProcess clk log = .ok s' ∧
      Tally s' children items' ∧ s.Frame s' ∧ Settled s' items' ∧
      (items ≠ [] → s'.currentPcb ≠ none) ∧
      (Roster s children items → Roster s' children items') := by
  cases items with
  | nil =>
      refine ⟨s, [], tally.wired.scheduleNextProcess_empty clk log, tally,
        Scheduler.Frame.refl s, ?_, fun nonempty => absurd rfl nonempty,
        fun roster => roster⟩
      intro _ a runs
      rw [idle] at runs
      cases runs
  | cons first rest =>
      obtain ⟨s', items', run, wired, frame, current, remaining, logged, hpf,
        others⟩ := tally.wired.scheduleNextProcess clk log
      have parts : (items' ++ s'.inHand).Perm (first :: rest ++ s.inHand) := by
        rw [Scheduler.inHand_none idle, List.append_nil]
        by_cases algorithm : s.selectedAlgorithm = .hpf
        · have hand : s'.inHand = [first] := by
            rw [Scheduler.inHand, frame.algorithm, if_pos algorithm, current]
            rfl
          rw [hand]
          exact (List.perm_append_singleton _ _).trans
            ((hpf algorithm).cons first)
        · have hand : s'.inHand = [] := by
            rw [Scheduler.inHand, frame.algorithm, if_neg algorithm]
          rw [hand, (others algorithm).2, List.append_nil]
      have settled : Settled s' items' := by
        intro other a runs
        rw [frame.algorithm] at other
        rw [(others other).2, List.head?_cons, ← current, runs]
      have member : s.selectedAlgorithm ≠ .hpf → ∀ a, s'.currentPcb = some a →
          a ∈ items' := by
        intro other a runs
        rw [current, Option.some.injEq] at runs
        rw [(others other).2, runs]
        exact List.mem_cons_self
      obtain ⟨tally', kept⟩ := tally.keep frame wired logged member parts
      refine ⟨s', items', run, tally', frame, settled, fun _ => ?_,
        kept (fun _ => remaining) fun srtn => (others (by simp [srtn])).1⟩
      rw [current]
      exact Option.some_ne_none first

/-- An expiration leaves the current process in the queue. -/
theorem handleQuantumExpiration (tally : Tally s children items)
    (preemptive : s.selectedAlgorithm ≠ .hpf) (clk log : Int) :
    ∃ s' items', s.handleQuantumExpiration clk log = .ok s' ∧
      Tally s' children items' ∧ s.Frame s' ∧ s'.currentPcb = none ∧
      items'.Perm items ∧
      (Roster s children items → Roster s' children items') := by
  cases runs : s.currentPcb with
  | none =>
      refine ⟨s, items, ?_, tally, Scheduler.Frame.refl s, runs,
        List.Perm.refl _, fun roster => roster⟩
      rw [Scheduler.handleQuantumExpiration, if_pos runs]
  | some a =>
      obtain ⟨s', items', run, wired, frame, idle, remaining, logged, ring,
        others⟩ := tally.wired.handleQuantumExpiration runs clk log
      have perm : items'.Perm items := by
        by_cases rr : s.selectedAlgorithm = .rr
        · rw [ring rr]
          exact List.rotate_perm items 1
        · rw [(others rr).2]
      have parts : (items' ++ s'.inHand).Perm (items ++ s.inHand) := by
        have before : s.inHand = [] := by
          rw [Scheduler.inHand, if_neg preemptive]
        rw [Scheduler.inHand_none idle, before]
        exact perm.append_right _
      obtain ⟨tally', kept⟩ := tally.keep frame wired logged
        (by rw [idle]; simp) parts
      exact ⟨s', items', run, tally', frame, idle, perm,
        kept (fun _ => remaining) fun srtn => (others (by simp [srtn])).1⟩

/-- The logs, the idle time and the end of input do not enter the accounts. -/
theorem settings (tally : Tally s children items) (log : List ExecutionLine)
    (idle : Int) (noMore : Bool) :
    let s' := { s with
      executionLog := log, idleTime := idle, noMoreProcesses := noMore }
    Tally s' children items ∧
      (Roster s children items → Roster s' children items) := by
  intro s'
  have tally' : Tally s' children items :=
    ⟨⟨tally.wired.shows, tally.wired.type, tally.wired.live,
      tally.wired.running⟩, tally.counted, tally.bounds, tally.ended, tally.once,
      tally.old, tally.member, tally.total⟩
  exact ⟨tally', fun roster =>
    ⟨tally', roster.apart, roster.exact, roster.keyed⟩⟩

/-- What a decision about the running process keeps.  Under SRTN a process that
goes on running is in front of the queue. -/
structure Decided (s s' : Scheduler) (children : List Int)
    (items items' : List Addr) (expired : Bool) : Prop where
  tally : Tally s' children items'
  frame : s.Frame s'
  preemptive : expired = true → s.selectedAlgorithm ≠ .hpf
  settled : Settled s items → Settled s' items'
  overtaken : Overtaken s items → Overtaken s' items'
  front : s.selectedAlgorithm = .srtn → expired = false → Settled s' items'
  roster : Roster s children items → Roster s' children items'

/-- A decision that changes nothing. -/
theorem decided (tally : Tally s children items) {expired : Bool}
    (preemptive : expired = true → s.selectedAlgorithm ≠ .hpf)
    (front : s.selectedAlgorithm = .srtn → expired = false →
      Settled s items) : Decided s s children items items expired :=
  ⟨tally, Scheduler.Frame.refl s, preemptive, fun kept => kept,
    fun kept => kept, front, fun roster => roster⟩

/-- The decision about the running process marks a quantum as used up, dispatches
a process, or changes nothing. -/
theorem runningDecision (tally : Tally s children items) (clk log : Int) :
    ∃ s' items' expired, s.runningDecision clk log = .ok (s', expired) ∧
      Decided s s' children items items' expired := by
  cases algorithm : s.selectedAlgorithm with
  | rr =>
      simp only [Scheduler.runningDecision, algorithm]
      cases runs : s.currentPcb with
      | none =>
          exact ⟨s, items, false, if_pos rfl,
            tally.decided (by simp) (by simp [algorithm])⟩
      | some a =>
          obtain ⟨pcb, live⟩ := tally.wired.running a runs
          rw [if_neg (Option.some_ne_none a), Scheduler.current_eq runs live,
            ok_bind]
          split
          next used =>
            let pcb' : PCB :=
              { pcb with remainingTime := s.lastRemainTime - s.quantum }
            let s' : Scheduler := { s with pcbs := s.pcbs.put a pcb' }
            have frame : s.Frame s' :=
              Scheduler.frame_of_put live pcb' rfl rfl rfl rfl rfl rfl
            obtain ⟨tally', kept⟩ := tally.keep frame
              ⟨tally.wired.shows, tally.wired.type,
                fun b member => frame.live (tally.wired.live b member),
                fun b same => frame.live (tally.wired.running b same)⟩
              rfl tally.member (List.Perm.refl _)
            refine ⟨s', items, true, ?_, tally', frame, by simp [algorithm],
              fun settled => settled, ?_, by simp,
              kept (fun other => absurd algorithm other)
                (by simp [algorithm])⟩
            · rw [Scheduler.updateCurrent_eq runs live]
              rfl
            · rintro ⟨srtn, _⟩
              rw [algorithm] at srtn
              cases srtn
          next =>
            exact ⟨s, items, false, rfl,
              tally.decided (by simp) (by simp [algorithm])⟩
  | hpf =>
      simp only [Scheduler.runningDecision, algorithm]
      by_cases idle : s.currentPcb = none
      · obtain ⟨s', items', run, tally', frame, settled, _, kept⟩ :=
          tally.scheduleNextProcess idle clk log
        refine ⟨s', items', false, ?_, tally', frame, by simp,
          fun _ => settled, ?_, fun _ _ => settled, kept⟩
        · rw [if_pos idle, run]
          rfl
        · rintro ⟨srtn, _⟩
          rw [algorithm] at srtn
          cases srtn
      · exact ⟨s, items, false, if_neg idle,
          tally.decided (by simp) (by simp [algorithm])⟩
  | srtn =>
      simp only [Scheduler.runningDecision, algorithm]
      rw [tally.wired.shows.front_eq, ok_bind]
      cases items with
      | nil =>
          refine ⟨s, [], false, if_pos rfl,
            tally.decided (by simp) fun _ _ other a runs => ?_⟩
          cases tally.member other a runs
      | cons first rest =>
          obtain ⟨pcb, live⟩ := tally.wired.live first List.mem_cons_self
          rw [List.head?_cons, if_neg (Option.some_ne_none first), derefPtr,
            deref_of_load live, ok_bind]
          refine ⟨s, first :: rest, _, rfl,
            tally.decided (by simp [algorithm]) ?_⟩
          intro _ stays other a runs
          rw [decide_eq_false_iff_not, not_and, not_not] at stays
          rw [List.head?_cons, ← runs]
          exact stays (by simp [runs])

/-- A child after another one has counted down is unchanged, or that one. -/
theorem child_set_cases {left : Int} {a b : Addr} {n : Int}
    (found : (children.set a left)[b]? = some n) :
    (b = a ∧ n = left) ∨ (b ≠ a ∧ children[b]? = some n) := by
  by_cases same : b = a
  · subst same
    rw [List.getElem?_set_self'] at found
    obtain ⟨_, _, equal⟩ := Option.map_eq_some_iff.mp found
    exact Or.inl ⟨rfl, equal.symm⟩
  · rw [List.getElem?_set_ne (Ne.symm same)] at found
    exact Or.inr ⟨same, found⟩

/-- A tick takes one unit off the current process and off its child. -/
theorem handleProcessTick (tally : Tally s children items) {a : Addr} {n : Int}
    (runs : s.currentPcb = some a) (child : children[a]? = some n)
    (more : 1 < n) :
    ∃ s' items', s.handleProcessTick = .ok s' ∧
      Tally s' (children.set a (n - 1)) items' ∧ s.Frame s' ∧
      s'.currentPcb = some a ∧ items'.Perm items ∧
      (Settled s items → Roster s children items →
        Roster s' (children.set a (n - 1)) items' ∧ Settled s' items') := by
  obtain ⟨s', items', rest, run, wired, frame, current, before, after, others,
    logged, perm, other, srtn⟩ := tally.wired.handleProcessTick runs
  have bound := tally.bounds n (List.mem_of_getElem? child)
  have tally' : Tally s' (children.set a (n - 1)) items' := by
    refine ⟨wired, ?_, ?_, ?_, ?_, ?_, ?_, ?_⟩
    · rw [List.length_set, frame.received, tally.counted]
    · intro m member
      rcases List.mem_or_eq_of_mem_set member with old | new
      · exact tally.bounds m old
      · omega
    · intro b m found
      rw [logged]
      rcases child_set_cases found with ⟨same, left⟩ | ⟨_, old⟩
      · rw [same, ← tally.ended a n child, left]
        omega
      · exact tally.ended b m old
    · rw [logged]
      exact tally.once
    · rw [logged, frame.received]
      exact tally.old
    · intro algorithm b same
      rw [frame.algorithm] at algorithm
      exact perm.mem_iff.mpr (tally.member algorithm b (by rw [runs, ← same,
        current]))
    · rw [perm.length_eq, Scheduler.inHand_congr frame.algorithm
        (current.trans runs.symm), logged, frame.received, tally.total]
  refine ⟨s', items', run, tally', frame, current, perm,
    fun settled roster => ?_⟩
  have hand : s'.inHand = s.inHand :=
    Scheduler.inHand_congr frame.algorithm (current.trans runs.symm)
  have exact : s.selectedAlgorithm ≠ .rr → ∀ b m,
      (children.set a (n - 1))[b]? = some m → s'.remaining b = some m := by
    intro algorithm b m found
    rcases child_set_cases found with ⟨same, left⟩ | ⟨apart, old⟩
    · have own := roster.exact algorithm a n child
      rw [before, Option.some.injEq] at own
      rw [same, left, after, own]
    · rw [others b apart]
      exact roster.exact algorithm b m old
  have apart : (items' ++ s'.inHand ++ s'.finished).Nodup := by
    rw [hand, logged]
    exact ((perm.append_right _).append_right _).nodup_iff.mpr roster.apart
  have keyed : s.selectedAlgorithm = .srtn →
      KeyedBy s'.readyQueue s'.sortKey ∧ items' = items := by
    intro algorithm
    have own := roster.exact (by simp [algorithm]) a n child
    have queue := srtn algorithm
    rw [before, Option.some.injEq] at own
    subst own
    obtain ⟨tail, rfl⟩ := settled.split (by simp [algorithm]) runs
    have old := roster.keyed algorithm
    have higher : s.sortKey a ≤ wrap (-(rest - 1)) := by
      rw [Scheduler.sortKey_eq before, wrap_of_inRange (by constructor <;> omega),
        wrap_of_inRange (by constructor <;> omega)]
      omega
    constructor
    · rw [queue]
      apply old.changePriority tally.wired.shows
        (Scheduler.sortKey_eq after)
      intro b member
      apply Scheduler.sortKey_congr (others b _)
      intro same
      have nodup := (List.nodup_append.mp
        (List.nodup_append.mp roster.apart).1).1
      exact (List.nodup_cons.mp nodup).1 (same ▸ member)
    · exact (tally.wired.shows.changePriority_front old higher).unique
        (queue ▸ wired.shows)
  have items_eq : s.selectedAlgorithm ≠ .hpf → items' = items := by
    intro _
    by_cases algorithm : s.selectedAlgorithm = .srtn
    · exact (keyed algorithm).2
    · exact tally.wired.shows.unique (other algorithm ▸ wired.shows)
  refine ⟨⟨tally', apart, ?_, ?_⟩, ?_⟩
  · rw [frame.algorithm]
    exact exact
  · rw [frame.algorithm]
    exact fun algorithm => (keyed algorithm).1
  · intro preemptive b same
    rw [frame.algorithm] at preemptive
    rw [items_eq preemptive]
    exact settled preemptive b (by rw [runs, ← same, current])

/-- The last signal of a child finishes the current process. -/
theorem handleProcessTermination (tally : Tally s children items) {a : Addr}
    (runs : s.currentPcb = some a) (child : children[a]? = some 1)
    (clk log : Int) :
    ∃ s' items', s.handleProcessTermination clk log = .ok s' ∧
      Tally s' (children.set a 0) items' ∧ s.Frame s' ∧
      s'.currentPcb = none ∧
      items'.length + 1 = items.length + s.inHand.length ∧
      (Settled s items → Roster s children items →
        Roster s' (children.set a 0) items') := by
  obtain ⟨s', items', run, wired, frame, idle, own, others, logged, hpf, rest,
    keys⟩ := tally.wired.handleProcessTermination runs clk log
  have inside : a < s.received := by
    obtain ⟨pcb, live⟩ := tally.wired.running a runs
    exact Scheduler.lt_received live
  have alive : a ∉ s.finished := by
    intro member
    have zero := (tally.ended a 1 child).mpr member
    omega
  have fewer : items'.length + 1 = items.length + s.inHand.length := by
    by_cases algorithm : s.selectedAlgorithm = .hpf
    · rw [hpf algorithm, Scheduler.inHand, if_pos algorithm, runs]
      rfl
    · have member := tally.member algorithm a runs
      have positive : 0 < items.length := List.length_pos_of_mem member
      rw [(rest algorithm).1.length_eq, List.length_tail, Scheduler.inHand,
        if_neg algorithm, List.length_nil]
      omega
  have tally' : Tally s' (children.set a 0) items' := by
    refine ⟨wired, ?_, ?_, ?_, ?_, ?_, ?_, ?_⟩
    · rw [List.length_set, frame.received, tally.counted]
    · intro m member
      rcases List.mem_or_eq_of_mem_set member with old | new
      · exact tally.bounds m old
      · omega
    · intro b m found
      rw [logged, List.mem_append, List.mem_singleton]
      rcases child_set_cases found with ⟨same, left⟩ | ⟨apart, old⟩
      · simp [same, left]
      · rw [tally.ended b m old]
        simp [apart]
    · rw [logged, List.nodup_append]
      refine ⟨tally.once, List.nodup_singleton a, ?_⟩
      intro b member c only same
      rw [List.mem_singleton.mp only] at same
      exact alive (same ▸ member)
    · intro b member
      rw [frame.received]
      rw [logged, List.mem_append, List.mem_singleton] at member
      rcases member with old | new
      · exact tally.old b old
      · rw [new]
        exact inside
    · rw [idle]
      simp
    · rw [logged, frame.received, ← tally.total, ← fewer,
        Scheduler.inHand_none idle, List.length_append, List.length_singleton]
      simp only [List.length_nil]
      omega
  refine ⟨s', items', run, tally', frame, idle, fewer, fun settled roster => ?_⟩
  have parts : (items' ++ s'.inHand ++ s'.finished).Perm
      (items ++ s.inHand ++ s.finished) := by
    have moved : (items' ++ [a]).Perm (items ++ s.inHand) := by
      by_cases algorithm : s.selectedAlgorithm = .hpf
      · rw [hpf algorithm, Scheduler.inHand, if_pos algorithm, runs]
        exact List.Perm.refl _
      · obtain ⟨tail, rfl⟩ := settled.split algorithm runs
        rw [Scheduler.inHand, if_neg algorithm, List.append_nil]
        exact (List.perm_append_singleton _ _).trans
          ((rest algorithm).1.cons _)
    rw [Scheduler.inHand_none idle, List.append_nil, logged]
    have turned : (items' ++ (s.finished ++ [a])).Perm
        (items' ++ [a] ++ s.finished) := by
      rw [List.append_assoc]
      exact List.perm_append_comm.append_left items'
    exact turned.trans (moved.append_right _)
  have apart := parts.nodup_iff.mpr roster.apart
  have gone : a ∉ items' := by
    intro member
    have both := (List.nodup_append.mp apart).2.2 a
      (List.mem_append_left _ member) a
    exact both (by rw [logged]; simp) rfl
  refine ⟨tally', apart, ?_, ?_⟩
  · intro algorithm b m found
    rw [frame.algorithm] at algorithm
    rcases child_set_cases found with ⟨same, left⟩ | ⟨other, old⟩
    · rw [same, left, own, roster.exact algorithm a 1 child]
      rfl
    · rw [others b other]
      exact roster.exact algorithm b m old
  · intro algorithm
    rw [frame.algorithm] at algorithm
    apply (keys _ (roster.keyed algorithm)).congr wired.shows
    intro b member
    exact Scheduler.sortKey_congr
      (others b fun same => gone (same ▸ member))

end Tally

section

variable {s : Scheduler} {children : List Int} {items : List Addr}

/-- Every process received waits, is in hand, or has finished. -/
theorem Roster.placed (roster : Roster s children items) {a : Addr}
    (inside : a < s.received) : a ∈ items ++ s.inHand ++ s.finished := by
  have tally := roster.tally
  apply mem_of_lt_of_nodup roster.apart _ _ inside
  · intro b place
    rcases List.mem_append.mp place with early | finished
    · rcases List.mem_append.mp early with waits | held
      · exact tally.lt_of_mem waits
      · exact tally.lt_of_inHand held
    · exact tally.old b finished
  · rw [List.length_append, List.length_append, tally.total]

/-- The current process has not finished. -/
theorem Roster.alive (roster : Roster s children items) {a : Addr}
    (runs : s.currentPcb = some a) : a ∉ s.finished := by
  intro ended
  have apart := (List.nodup_append.mp roster.apart).2.2
  have place : a ∈ items ++ s.inHand := by
    by_cases hpf : s.selectedAlgorithm = .hpf
    · exact List.mem_append_right _ (Scheduler.mem_inHand.mpr ⟨hpf, runs⟩)
    · exact List.mem_append_left _ (roster.tally.member hpf a runs)
  exact apart a place a ended rfl

/-- Where no process is held outside the queue, the unfinished ones wait. -/
theorem Roster.waits (roster : Roster s children items)
    (other : s.selectedAlgorithm ≠ .hpf) {a : Addr} (inside : a < s.received)
    (alive : a ∉ s.finished) : a ∈ items := by
  have placed := roster.placed inside
  rw [Scheduler.inHand, if_neg other, List.append_nil] at placed
  rcases List.mem_append.mp placed with waits | done
  · exact waits
  · exact absurd done alive

end

end OsSim
