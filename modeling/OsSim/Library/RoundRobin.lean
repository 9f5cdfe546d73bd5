/-
Module: OsSim.Library.RoundRobin
Purpose: A server that takes its customers in turn.  Whoever is served stands in
  front of the queue, and goes to its end or leaves; new customers may enter
  anywhere.  Between two turns of one customer everybody else who stays has
  exactly one.
Trusted boundary: none
Main exports:
  Server, Server.Step, Server.Step.sound, Server.fair
-/
import Mathlib.Logic.Relation
import Mathlib.Data.List.Nodup
import Mathlib.Data.Set.Insert

namespace RoundRobin

variable {α : Type*}

/-- The customers who wait, the one who is being served, the turns there have
been, and everybody who has ever entered. -/
structure Server (α : Type*) where
  queue : List α
  serving : Option α
  turns : List α
  seen : Set α

namespace Server

/-- What may happen: nothing, an arrival, a turn that begins, a turn that ends
at the end of the queue, and a departure. -/
inductive Step : Server α → Server α → Prop
  | same (s : Server α) : Step s s
  | arrive {left right turns : List α} {serving : Option α} {seen : Set α}
      (a : α) (fresh : a ∉ seen) :
      Step ⟨left ++ right, serving, turns, seen⟩
        ⟨left ++ a :: right, serving, turns, insert a seen⟩
  | serve {rest turns : List α} {seen : Set α} (first : α) :
      Step ⟨first :: rest, none, turns, seen⟩
        ⟨first :: rest, some first, turns ++ [first], seen⟩
  | yield {rest turns : List α} {seen : Set α} (first : α) :
      Step ⟨first :: rest, some first, turns, seen⟩
        ⟨rest ++ [first], none, turns, seen⟩
  | leave {rest turns : List α} {seen : Set α} (first : α) :
      Step ⟨first :: rest, some first, turns, seen⟩ ⟨rest, none, turns, seen⟩

/-- Nobody stands in the queue twice, or without having entered. -/
structure Sound (s : Server α) : Prop where
  nodup : s.queue.Nodup
  entered : ∀ a ∈ s.queue, a ∈ s.seen

theorem Step.sound {s t : Server α} (step : Step s t) (sound : s.Sound) :
    t.Sound := by
  obtain ⟨nodup, entered⟩ := sound
  cases step with
  | same => exact ⟨nodup, entered⟩
  | arrive a fresh =>
      refine ⟨List.nodup_middle.mpr (List.nodup_cons.mpr ⟨?_, nodup⟩), ?_⟩
      · exact fun member => fresh (entered a member)
      · intro b member
        rcases List.mem_cons.mp (List.perm_middle.mem_iff.mp member) with
          new | old
        · rw [new]
          exact Set.mem_insert a _
        · exact Set.mem_insert_of_mem a (entered b old)
  | serve first => exact ⟨nodup, entered⟩
  | @yield rest turns seen first =>
      have turned : ([first] ++ rest).Perm (rest ++ [first]) :=
        List.perm_append_comm
      refine ⟨turned.nodup_iff.mp nodup, fun b member => ?_⟩
      exact entered b (turned.mem_iff.mpr member)
  | leave first =>
      exact ⟨(List.nodup_cons.mp nodup).2,
        fun b member => entered b (List.mem_cons_of_mem first member)⟩

theorem Step.seen_mono {s t : Server α} (step : Step s t) {a : α}
    (inside : a ∈ s.seen) : a ∈ t.seen := by
  cases step with
  | arrive b fresh => exact Set.mem_insert_of_mem b inside
  | _ => exact inside

/-- Of two customers in a queue the first one is not found behind the other. -/
private theorem behind {a b c : α} {rest : List α}
    (order : [a, b].Sublist (c :: rest)) (other : c ≠ a) :
    [a, b].Sublist rest := by
  cases order with
  | cons _ inside => exact inside
  | cons_cons _ _ => exact absurd rfl other

private theorem behind_mem {a b : α} {rest : List α}
    (order : [a, b].Sublist (a :: rest)) : b ∈ rest := by
  cases order with
  | cons _ inside => exact inside.subset (by simp)
  | cons_cons _ inside => exact inside.subset (by simp)

/-- The turn that a step begins is that of the customer in front. -/
theorem Step.begins {s t : Server α} (step : Step s t) {p : α}
    (turn : t.turns = s.turns ++ [p]) :
    s.serving = none ∧ t.serving = some p ∧ t.queue = s.queue ∧
      ∃ rest, s.queue = p :: rest := by
  cases step with
  | serve first =>
      have same := (List.append_cancel_left turn)
      rw [List.singleton_inj] at same
      subst same
      exact ⟨rfl, rfl, rfl, _, rfl⟩
  | _ => exact absurd turn (by simp)

variable [DecidableEq α]

/-- How far the others have come since a turn of `p` began, after the turns
`base`.  During that turn `q` has had none.  Later `q` stands before `p` until
its own turn has ended, and after `p` from then on. -/
inductive Progress (p q : α) (s : Server α) (turns : List α) : Prop
  | again (other : p ∈ turns)
  | during (serving : s.serving = some p) (none : turns.count q = 0)
  | before (ended : s.serving ≠ some p) (order : [q, p].Sublist s.queue)
      (count : turns.count q = if s.serving = some q then 1 else 0)
  | after (ended : s.serving ≠ some p) (order : [p, q].Sublist s.queue)
      (once : turns.count q = 1)

/-- As long as both stay, the turns since then are accounted for. -/
def Turning (p q : α) (base : List α) (s : Server α) : Prop :=
  p ∈ s.queue → q ∈ s.queue →
    ∃ turns, s.turns = base ++ turns ∧ Progress p q s turns

theorem Step.turning {s t : Server α} (step : Step s t) (sound : s.Sound)
    {p q : α} {base : List α} (other : q ≠ p) (first : p ∈ s.seen)
    (second : q ∈ s.seen) (turning : Turning p q base s) :
    Turning p q base t := by
  cases step with
  | same => exact turning
  | @arrive left right turns serving seen a fresh =>
      have stayed : ∀ {b : α}, b ∈ seen → b ∈ left ++ a :: right →
          b ∈ left ++ right := by
        intro b old member
        rcases List.mem_cons.mp (List.perm_middle.mem_iff.mp member) with
          new | inside
        · exact absurd (new ▸ old) fresh
        · exact inside
      have longer : (left ++ right).Sublist (left ++ a :: right) :=
        List.Sublist.append_left (List.sublist_cons_self a right) left
      intro pStays qStays
      obtain ⟨since, same, progress⟩ :=
        turning (stayed first pStays) (stayed second qStays)
      refine ⟨since, same, ?_⟩
      cases progress with
      | again other => exact .again other
      | during serving none => exact .during serving none
      | before ended order count => exact .before ended (order.trans longer) count
      | after ended order once => exact .after ended (order.trans longer) once
  | @serve rest turns seen c =>
      intro pStays qStays
      obtain ⟨since, same, progress⟩ := turning pStays qStays
      refine ⟨since ++ [c], ?_, ?_⟩
      · exact (congrArg (· ++ [c]) same).trans (List.append_assoc base since [c])
      · by_cases own : c = p
        · exact .again (by simp [own])
        · have ended : some c ≠ some p := fun equal => own (Option.some.inj equal)
          cases progress with
          | again other => exact .again (List.mem_append_left _ other)
          | during serving none => cases serving
          | before _ order count =>
              refine .before ended order ?_
              rw [List.count_append, count]
              by_cases turn : c = q <;> simp [turn]
          | after _ order once =>
              refine .after ended order ?_
              have late : c ≠ q := by
                intro equal
                have inside := behind order own
                exact (List.nodup_cons.mp sound.nodup).1
                  (equal ▸ inside.subset (by simp))
              rw [List.count_append, once]
              simp [late]
  | @yield rest turns seen c =>
      intro pStays qStays
      have turned : ([c] ++ rest).Perm (rest ++ [c]) := List.perm_append_comm
      obtain ⟨since, same, progress⟩ :=
        turning (turned.mem_iff.mpr pStays) (turned.mem_iff.mpr qStays)
      refine ⟨since, same, ?_⟩
      have idle : (none : Option α) ≠ some p := by simp
      cases progress with
      | again other => exact .again other
      | during serving none =>
          rw [Option.some.injEq] at serving
          subst serving
          have inside : q ∈ rest := by
            rcases List.mem_append.mp qStays with inside | last
            · exact inside
            · exact absurd (List.mem_singleton.mp last) other
          refine .before idle ?_ (by simp [none])
          exact List.Sublist.append (List.singleton_sublist.mpr inside)
            (List.Sublist.refl [c])
      | before ended order count =>
          by_cases own : c = q
          · subst own
            refine .after idle ?_ (by simpa using count)
            exact List.Sublist.append
              (List.singleton_sublist.mpr (behind_mem order))
              (List.Sublist.refl [c])
          · refine .before idle ((behind order own).trans
              (List.sublist_append_left rest [c])) ?_
            simpa [own] using count
      | after ended order once =>
          have late : c ≠ p := fun equal => ended (congrArg some equal)
          exact .after idle ((behind order late).trans
            (List.sublist_append_left rest [c])) once
  | @leave rest turns seen c =>
      intro pStays qStays
      have gone := (List.nodup_cons.mp sound.nodup).1
      have notP : c ≠ p := fun equal => gone (equal ▸ pStays)
      have notQ : c ≠ q := fun equal => gone (equal ▸ qStays)
      obtain ⟨since, same, progress⟩ := turning
        (List.mem_cons_of_mem c pStays) (List.mem_cons_of_mem c qStays)
      refine ⟨since, same, ?_⟩
      have idle : (none : Option α) ≠ some p := by simp
      cases progress with
      | again other => exact .again other
      | during serving none => exact absurd (Option.some.inj serving) notP
      | before ended order count =>
          refine .before idle (behind order notQ) ?_
          simpa [notQ] using count
      | after ended order once => exact .after idle (behind order notP) once

/-- A run keeps the account of the turns since one of `p` began. -/
theorem turning_of_run {s t : Server α} (run : Relation.ReflTransGen Step s t)
    (sound : s.Sound) {p q : α} (other : q ≠ p) (begins : s.serving = some p)
    (first : p ∈ s.queue) (second : q ∈ s.queue) :
    t.Sound ∧ p ∈ t.seen ∧ q ∈ t.seen ∧ Turning p q s.turns t := by
  induction run with
  | refl =>
      refine ⟨sound, sound.entered p first, sound.entered q second, fun _ _ => ?_⟩
      exact ⟨[], by simp, .during begins (by simp)⟩
  | tail _ step ih =>
      obtain ⟨sound', first', second', turning⟩ := ih
      exact ⟨step.sound sound', step.seen_mono first', step.seen_mono second',
        step.turning sound' other first' second' turning⟩

/-- Everybody who stays from the beginning of a turn of `p` until the next one
has had exactly one turn in between. -/
theorem fair {s t : Server α} (run : Relation.ReflTransGen Step s t)
    (sound : s.Sound) {p q : α} (other : q ≠ p) (begins : s.serving = some p)
    (first : p ∈ s.queue) (second : q ∈ s.queue) {rest : List α}
    (idle : t.serving = none) (front : t.queue = p :: rest) (stays : q ∈ t.queue)
    {turns : List α} (since : t.turns = s.turns ++ turns) (next : p ∉ turns) :
    turns.count q = 1 := by
  obtain ⟨sound', _, _, turning⟩ :=
    turning_of_run run sound other begins first second
  obtain ⟨turns', same, progress⟩ := turning (by simp [front]) stays
  rw [since, List.append_cancel_left_eq] at same
  subst same
  cases progress with
  | again early => exact absurd early next
  | during serving none =>
      rw [idle] at serving
      cases serving
  | before ended order count =>
      rw [front] at order
      have inside := behind order other.symm
      have nodup := sound'.nodup
      rw [front] at nodup
      exact absurd (inside.subset (by simp)) (List.nodup_cons.mp nodup).1
  | after ended order once => exact once

end Server

end RoundRobin
