/-
Module: OsSim.Library.LeftEdge
Purpose: How deep an element can sink in a binary heap: it passes as many elements
  as it sinks levels, and with that many elements ahead of it there is a heap in
  which it does.
Trusted boundary: none
Main exports:
  Sinks.trans, Sinks.needs, ahead_of_sinks, leaning, leaning_perm, leaning_edge,
  leaning_sorted, exists_ahead_first, leaning_ordered, leaning_sinks,
  exists_leaning
-/
import OsSim.Library.SinkPath
import Mathlib.Tactic.Ring

namespace BinaryHeap

variable {α : Type*}

section

variable {κ : Type*} [LinearOrder κ] [Inhabited κ] {key : α → κ} {items : List α}

theorem Sinks.trans {level : κ} {i j k : Nat} (upper : Sinks key items level i j)
    (lower : Sinks key items level j k) : Sinks key items level i k := by
  induction upper with
  | here i => exact lower
  | down inside above rest ih => exact Sinks.down inside above (ih lower)

/-- A child lies at most on the next level. -/
theorem greaterChild_le (key : α → κ) (items : List α) (i : Nat) :
    greaterChild key items i ≤ 2 * i + 2 := by
  rw [greaterChild]
  split <;> omega

/-- An element that sinks so many levels passes as many greater ones, which all
come later in the heap. -/
theorem Sinks.needs {level : κ} {i j : Nat} (sinks : Sinks key items level i j) :
    ∃ depth, j + 2 ≤ 2 ^ depth * (i + 2) ∧
      depth ≤ (items.drop (i + 1)).countP fun a => level < key a := by
  induction sinks with
  | here i => exact ⟨0, by omega, Nat.zero_le _⟩
  | down inside above rest ih =>
      rename_i i j
      obtain ⟨depth, bound, passed⟩ := ih
      have below := greaterChild_le key items i
      have later : i + 1 ≤ greaterChild key items i := lt_greaterChild key items i
      refine ⟨depth + 1, ?_, ?_⟩
      · calc j + 2 ≤ 2 ^ depth * (greaterChild key items i + 2) := bound
          _ ≤ 2 ^ depth * (2 * (i + 2)) := Nat.mul_le_mul_left _ (by omega)
          _ = 2 ^ (depth + 1) * (i + 2) := by ring
      · have found := List.getElem?_eq_getElem inside
        rw [keyAt_of_getElem? found] at above
        have counted : ((items.drop (greaterChild key items i)).countP
            fun a => level < key a) =
              ((items.drop (greaterChild key items i + 1)).countP
                fun a => level < key a) + 1 := by
          rw [List.drop_eq_getElem_cons inside, List.countP_cons_of_pos]
          exact decide_eq_true above
        have fewer := (List.drop_sublist_drop_left items later).countP_le
          (p := fun a => decide (level < key a))
        omega

/-- In a heap in order, what sinks from the place of the root passes only elements
that some other one comes after; the old root was one of them as well. -/
theorem ahead_of_sinks {place depth : Nat} (ordered : Ordered key items)
    (sinks : Sinks key (replaceRoot items) (keyAt key (replaceRoot items) 0) 0 place)
    (positive : 0 < depth) (deep : 2 ^ depth - 1 ≤ place) :
    depth < (items.filter fun a => ∃ b ∈ items, key b < key a).length := by
  obtain ⟨levels, reach, passed⟩ := sinks.needs
  have enough : depth ≤ levels := by
    by_contra short
    have bound := Nat.pow_le_pow_right (show 0 < 2 by decide)
      (Nat.not_le.mp short)
    rw [Nat.succ_eq_add_one, Nat.pow_succ] at bound
    omega
  have passed' := enough.trans
    (passed.trans (List.drop_sublist 1 (replaceRoot items)).countP_le)
  cases items with
  | nil => exact absurd passed' (Nat.not_le.mpr positive)
  | cons root rest =>
      have others := replaceRoot_perm root rest
      obtain ⟨moved, member, level⟩ : ∃ moved ∈ root :: rest,
          keyAt key (replaceRoot (root :: rest)) 0 = key moved := by
        cases split : replaceRoot (root :: rest) with
        | nil =>
            rw [split] at passed'
            exact absurd passed' (Nat.not_le.mpr positive)
        | cons moved tail =>
            refine ⟨moved, mem_of_mem_replaceRoot ?_, rfl⟩
            rw [split]
            exact List.mem_cons_self
      rw [level, others.countP_eq] at passed'
      obtain ⟨a, inside, above⟩ :=
        List.countP_pos_iff.mp (Nat.lt_of_lt_of_le positive passed')
      have top : key moved < key root :=
        (of_decide_eq_true above).trans_le
          (ordered.le_front (List.mem_cons_of_mem root inside))
      have first : decide (∃ b ∈ root :: rest, key b < key root) = true :=
        decide_eq_true ⟨moved, member, top⟩
      have mono : (rest.countP fun a => key moved < key a) ≤
          rest.countP fun a => ∃ b ∈ root :: rest, key b < key a := by
        apply List.countP_mono_left
        intro other _ higher
        exact decide_eq_true ⟨moved, member, of_decide_eq_true higher⟩
      have counted := List.countP_cons_of_pos (l := rest)
        (p := fun a => decide (∃ b ∈ root :: rest, key b < key a)) first
      rw [← List.countP_eq_length_filter, counted]
      omega

end

/-! ### A heap with given elements on its left edge

The left edge of a heap has the places 0, 1, 3, 7 and so on.  A list in order is
arranged with its first elements there and all others, still in order, on the
places between.  Then a place off the edge has a key that no earlier place falls
below, and the path along the greater children runs down the edge. -/

/-- The elements of `path` and then `last` on the left edge, those of `rest` between
them.  After the first element `gap` places follow on the same level. -/
def leaning : List α → α → List α → Nat → List α
  | [], last, rest, _ => last :: rest
  | item :: path, last, rest, gap =>
      item :: (rest.take gap ++ leaning path last (rest.drop gap) (2 * gap + 1))

theorem leaning_perm (path : List α) (last : α) (rest : List α) (gap : Nat) :
    (leaning path last rest gap).Perm (path ++ last :: rest) := by
  induction path generalizing rest gap with
  | nil => exact List.Perm.refl _
  | cons item path ih =>
      rw [leaning, List.cons_append]
      apply List.Perm.cons
      have moved : (rest.take gap ++ (path ++ last :: rest.drop gap)).Perm
          (path ++ (rest.take gap ++ last :: rest.drop gap)) :=
        List.perm_append_comm_assoc _ _ _
      have middle : (rest.take gap ++ last :: rest.drop gap).Perm (last :: rest) := by
        have swapped : (rest.take gap ++ last :: rest.drop gap).Perm
            (last :: (rest.take gap ++ rest.drop gap)) := List.perm_middle
        rwa [List.take_append_drop] at swapped
      exact ((ih _ _).append_left _).trans
        (moved.trans (middle.append_left _))

/-- The rest fills every level above that of `last`. -/
def Fills (path rest : List α) (gap : Nat) : Prop :=
  (gap + 1) * 2 ^ path.length ≤ path.length + rest.length + gap + 1

section

variable {item last : α} {path rest : List α} {gap : Nat}

theorem Fills.gap_le (fills : Fills (item :: path) rest gap) :
    gap ≤ rest.length := by
  have grows : (gap + 1) * (2 * (path.length + 1)) ≤
      (gap + 1) * 2 ^ (path.length + 1) := by
    apply Nat.mul_le_mul_left
    rw [Nat.pow_succ, Nat.mul_comm]
    exact Nat.mul_le_mul_right 2 Nat.lt_two_pow_self
  have expanded : (gap + 1) * (2 * (path.length + 1)) =
      2 * (gap * path.length) + 2 * gap + 2 * path.length + 2 := by ring
  rw [Fills, List.length_cons] at fills
  omega

theorem Fills.tail (fills : Fills (item :: path) rest gap) :
    Fills path (rest.drop gap) (2 * gap + 1) := by
  have enough := fills.gap_le
  rw [Fills, List.length_cons] at fills
  have same : (2 * gap + 1 + 1) * 2 ^ path.length =
      (gap + 1) * 2 ^ (path.length + 1) := by ring
  rw [Fills, same, List.length_drop]
  omega

/-- The places on the left edge. -/
theorem leaning_edge (last : α) (fills : Fills path rest gap) {k place : Nat}
    (inside : k ≤ path.length) (edge : place + gap + 1 = (gap + 1) * 2 ^ k) :
    (leaning path last rest gap)[place]? = (path ++ [last])[k]? := by
  induction path generalizing rest gap k place with
  | nil =>
      obtain rfl : k = 0 := Nat.le_zero.mp inside
      obtain rfl : place = 0 := by omega
      rfl
  | cons item path ih =>
      cases k with
      | zero =>
          obtain rfl : place = 0 := by omega
          rfl
      | succ k =>
          have doubled : (gap + 1) * 2 ^ (k + 1) = (2 * gap + 1 + 1) * 2 ^ k := by
            ring
          have positive : 2 * gap + 1 + 1 ≤ (2 * gap + 1 + 1) * 2 ^ k :=
            Nat.le_mul_of_pos_right _ (Nat.two_pow_pos k)
          obtain ⟨lower, rfl⟩ : ∃ lower, place = gap + lower + 1 :=
            ⟨place - gap - 1, by omega⟩
          have taken : (rest.take gap).length = gap :=
            List.length_take_of_le fills.gap_le
          rw [leaning, List.getElem?_cons_succ, List.cons_append,
            List.getElem?_cons_succ, List.getElem?_append_right (by omega), taken,
            Nat.add_sub_cancel_left]
          exact ih fills.tail (Nat.le_of_succ_le_succ inside) (by omega)

/-- Off the left edge there are elements of the rest. -/
theorem leaning_off_edge (fills : Fills path rest gap) {place : Nat} {b : α}
    (off : ∀ k ≤ path.length, place + gap + 1 ≠ (gap + 1) * 2 ^ k)
    (found : (leaning path last rest gap)[place]? = some b) : b ∈ rest := by
  induction path generalizing rest gap place with
  | nil =>
      cases place with
      | zero => exact absurd (by omega) (off 0 (Nat.zero_le _))
      | succ place => exact List.mem_of_getElem? found
  | cons item path ih =>
      cases place with
      | zero => exact absurd (by omega) (off 0 (Nat.zero_le _))
      | succ place =>
          have taken : (rest.take gap).length = gap :=
            List.length_take_of_le fills.gap_le
          rw [leaning, List.getElem?_cons_succ] at found
          rcases Nat.lt_or_ge place gap with upper | lower
          · rw [List.getElem?_append_left (by omega)] at found
            exact List.mem_of_mem_take (List.mem_of_getElem? found)
          · rw [List.getElem?_append_right (by omega), taken] at found
            apply List.mem_of_mem_drop (ih fills.tail _ found)
            intro k bound same
            apply off (k + 1) (Nat.succ_le_succ bound)
            have doubled : (gap + 1) * 2 ^ (k + 1) =
                (2 * gap + 1 + 1) * 2 ^ k := by ring
            omega

/-- An element off the left edge comes, in the list in order, after all those that
have earlier places. -/
theorem leaning_sorted {R : α → α → Prop} (fills : Fills path rest gap)
    (sorted : (path ++ last :: rest).Pairwise R) {i j : Nat} {a b : α}
    (earlier : i < j) (off : ∀ k ≤ path.length, j + gap + 1 ≠ (gap + 1) * 2 ^ k)
    (first : (leaning path last rest gap)[i]? = some a)
    (second : (leaning path last rest gap)[j]? = some b) : R a b := by
  induction path generalizing rest gap i j with
  | nil =>
      have ordered : (last :: rest).Pairwise R := sorted
      have inside := leaning_off_edge fills off second
      cases i with
      | zero =>
          obtain rfl : last = a := Option.some.inj first
          exact List.rel_of_pairwise_cons ordered inside
      | succ i =>
          obtain ⟨bound, rfl⟩ := List.getElem?_eq_some_iff.mp first
          obtain ⟨bound', rfl⟩ := List.getElem?_eq_some_iff.mp second
          exact List.pairwise_iff_getElem.mp ordered _ _ bound bound' earlier
  | cons item path ih =>
      obtain ⟨j, rfl⟩ : ∃ later, j = later + 1 := ⟨j - 1, by omega⟩
      have member := leaning_off_edge fills off second
      rw [List.cons_append, List.pairwise_cons] at sorted
      obtain ⟨top, others⟩ := sorted
      have taken : (rest.take gap).length = gap :=
        List.length_take_of_le fills.gap_le
      cases i with
      | zero =>
          obtain rfl : item = a := Option.some.inj first
          exact top b (List.mem_append_right _ (List.mem_cons_of_mem _ member))
      | succ i =>
          have apart := (List.pairwise_append.mp others).2.1
          have between : (rest.take gap ++ rest.drop gap).Pairwise R := by
            rw [List.take_append_drop]
            exact (List.pairwise_cons.mp apart).2
          rw [leaning, List.getElem?_cons_succ] at first second
          rcases Nat.lt_or_ge j gap with upper | lower
          · rw [List.getElem?_append_left (by omega)] at first second
            obtain ⟨bound, rfl⟩ := List.getElem?_eq_some_iff.mp first
            obtain ⟨bound', rfl⟩ := List.getElem?_eq_some_iff.mp second
            exact List.pairwise_iff_getElem.mp
              (List.pairwise_append.mp between).1 _ _ bound bound' (by omega)
          · have off' : ∀ k ≤ path.length,
                (j - gap) + (2 * gap + 1) + 1 ≠ (2 * gap + 1 + 1) * 2 ^ k := by
              intro k bound same
              apply off (k + 1) (Nat.succ_le_succ bound)
              have doubled : (gap + 1) * 2 ^ (k + 1) =
                  (2 * gap + 1 + 1) * 2 ^ k := by ring
              omega
            rw [List.getElem?_append_right (by omega), taken] at second
            rcases Nat.lt_or_ge i gap with before | after
            · rw [List.getElem?_append_left (by omega)] at first
              exact (List.pairwise_append.mp between).2.2 a
                (List.mem_of_getElem? first) b
                (leaning_off_edge fills.tail off' second)
            · rw [List.getElem?_append_right (by omega), taken] at first
              have dropped : (path ++ last :: rest.drop gap).Pairwise R :=
                List.Pairwise.sublist
                  (((List.drop_sublist gap rest).cons_cons last).append_left path)
                  others
              exact ih fills.tail dropped (by omega) off' first second

end

/-- The elements in order, those that are ahead of some other one first. -/
theorem exists_ahead_first {κ : Type*} [LinearOrder κ] (key : α → κ)
    (items : List α) :
    ∃ first behind : List α, (first ++ behind).Perm items ∧
      (first ++ behind).Pairwise (fun a b => key b ≤ key a) ∧
      first.length = (items.filter fun a => ∃ b ∈ items, key b < key a).length ∧
      ∀ a ∈ first, ∃ b ∈ items, key b < key a := by
  have parts := List.filter_append_perm
    (fun a => decide (∃ b ∈ items, key b < key a)) items
  have sorts := List.mergeSort_perm
    (items.filter fun a => ∃ b ∈ items, key b < key a) fun a b => key b ≤ key a
  have least : ∀ b ∈ items.filter
      (fun a => !decide (∃ b ∈ items, key b < key a)), ∀ a ∈ items,
      key b ≤ key a := by
    intro b member a inside
    have none := (List.mem_filter.mp member).2
    simp only [Bool.not_eq_true', decide_eq_false_iff_not] at none
    exact not_lt.mp fun less => none ⟨a, inside, less⟩
  refine ⟨_, _, (sorts.append_right _).trans parts, ?_, sorts.length_eq, ?_⟩
  · rw [List.pairwise_append]
    refine ⟨?_, ?_, ?_⟩
    · have ordered : ((items.filter fun a => ∃ b ∈ items, key b < key a).mergeSort
          fun a b => key b ≤ key a).Pairwise
          fun a b => decide (key b ≤ key a) = true := by
        apply List.pairwise_mergeSort
        · intro a b c left right
          rw [decide_eq_true_iff] at left right ⊢
          exact right.trans left
        · intro a b
          simpa using le_total (key b) (key a)
      exact ordered.imp fun order => of_decide_eq_true order
    · exact List.pairwise_of_forall_mem_list fun a left b right =>
        least b right a (List.mem_filter.mp left).1
    · intro a left b right
      exact least b right a (List.mem_filter.mp (sorts.mem_iff.mp left)).1
  · intro a member
    exact of_decide_eq_true (List.mem_filter.mp (sorts.mem_iff.mp member)).2

section

variable {κ : Type*} [LinearOrder κ] [Inhabited κ] {key : α → κ} {last : α}
  {path rest : List α}

/-- Such an arrangement of a list in order is a heap. -/
theorem leaning_ordered (fills : Fills path rest 0)
    (sorted : (path ++ last :: rest).Pairwise fun a b => key b ≤ key a) :
    Ordered key (leaning path last rest 0) := by
  intro c positive inside
  have found := List.getElem?_eq_getElem inside
  have parent := List.getElem?_eq_getElem
    (Nat.lt_of_le_of_lt (show (c - 1) / 2 ≤ c by omega) inside)
  rw [keyAt_of_getElem? found, keyAt_of_getElem? parent]
  by_cases edge : ∃ k ≤ path.length, c + 0 + 1 = (0 + 1) * 2 ^ k
  · obtain ⟨k, bound, place⟩ := edge
    cases k with
    | zero => omega
    | succ k =>
        rw [Nat.pow_succ] at place
        have upper := leaning_edge last fills (Nat.le_of_succ_le bound)
          (show (c - 1) / 2 + 0 + 1 = (0 + 1) * 2 ^ k by omega)
        have lower := leaning_edge last fills bound
          (show c + 0 + 1 = (0 + 1) * 2 ^ (k + 1) by rw [Nat.pow_succ]; exact place)
        rw [parent] at upper
        rw [found] at lower
        obtain ⟨inside', same⟩ := List.getElem?_eq_some_iff.mp upper.symm
        obtain ⟨inside'', same'⟩ := List.getElem?_eq_some_iff.mp lower.symm
        have along : (path ++ [last]).Pairwise fun a b => key b ≤ key a :=
          List.Pairwise.sublist
            ((List.singleton_sublist.mpr List.mem_cons_self).append_left path) sorted
        rw [← same, ← same']
        exact List.pairwise_iff_getElem.mp along _ _ _ _ (Nat.lt_succ_self k)
  · apply leaning_sorted fills sorted (show (c - 1) / 2 < c by omega) _ parent found
    intro k bound place
    exact edge ⟨k, bound, place⟩

/-- In a heap that has these elements below its root, an element of a lesser key
sinks down the edge. -/
theorem leaning_sinks (fills : Fills path rest 0)
    (sorted : (path ++ last :: rest).Pairwise fun a b => key b ≤ key a)
    {items : List α} (room : 2 ^ path.length ≤ items.length)
    (same : ∀ i, 0 < i → i < items.length →
      keyAt key items i = keyAt key (leaning path last rest 0) i)
    (shorter : items.length ≤ (leaning path last rest 0).length) {level : κ}
    (above : ∀ a ∈ path ++ [last], level < key a) {k : Nat}
    (inside : k ≤ path.length) : Sinks key items level 0 (2 ^ k - 1) := by
  induction k with
  | zero => exact Sinks.here 0
  | succ k ih =>
      have doubled : 2 ^ (k + 1) = 2 * 2 ^ k := by ring
      have positive := Nat.two_pow_pos k
      have wide : 2 ^ (k + 1) ≤ 2 ^ path.length :=
        Nat.pow_le_pow_right (by decide) inside
      have edge := leaning_edge last fills inside
        (show 2 * (2 ^ k - 1) + 1 + 0 + 1 = (0 + 1) * 2 ^ (k + 1) by omega)
      have bound : k + 1 < (path ++ [last]).length := by
        rw [List.length_append, List.length_singleton]
        omega
      rw [List.getElem?_eq_getElem bound] at edge
      have keyed := same (2 * (2 ^ k - 1) + 1) (by omega) (by omega)
      have goes : greaterChild key items (2 ^ k - 1) = 2 * (2 ^ k - 1) + 1 := by
        rw [greaterChild, if_neg]
        rintro ⟨right, greater⟩
        -- The place to the right of the edge has an element of the rest.
        have place := List.getElem?_eq_getElem (Nat.lt_of_lt_of_le right shorter)
        have order := leaning_sorted fills sorted (Nat.lt_succ_self _) (by
          intro j _ parity
          cases j with
          | zero => omega
          | succ j =>
              rw [Nat.pow_succ] at parity
              omega) edge place
        rw [keyed, same _ (by omega) right, keyAt_of_getElem? edge,
          keyAt_of_getElem? place] at greater
        exact absurd greater (not_lt.mpr order)
      have stepped : Sinks key items level (2 ^ k - 1) (2 ^ (k + 1) - 1) := by
        have target : 2 ^ (k + 1) - 1 = greaterChild key items (2 ^ k - 1) := by
          rw [goes]
          omega
        rw [target]
        apply Sinks.down _ _ (Sinks.here _)
        · rw [goes]
          omega
        · rw [goes, keyed, keyAt_of_getElem? edge]
          exact above _ (List.getElem_mem bound)
      exact (ih (Nat.le_of_succ_le inside)).trans stepped

/-- More than `depth` elements that are ahead of some other one can be arranged so
that, once the last element has taken the place of the root, it sinks `depth`
levels. -/
theorem exists_leaning {items : List α} {depth : Nat}
    (ahead : depth < (items.filter fun a => ∃ b ∈ items, key b < key a).length)
    (large : 2 ^ depth < items.length) :
    ∃ arranged : List α, arranged.Perm items ∧ Ordered key arranged ∧
      Sinks key (replaceRoot arranged) (keyAt key (replaceRoot arranged) 0) 0
        (2 ^ depth - 1) := by
  obtain ⟨first, behind, perm, sorted, many, before⟩ := exists_ahead_first key items
  rw [← many] at ahead
  obtain ⟨path, last, more, length, rfl⟩ : ∃ path last more,
      path.length = depth ∧ first = path ++ last :: more :=
    ⟨first.take depth, first[depth], first.drop (depth + 1),
      List.length_take_of_le (Nat.le_of_lt ahead), by
        rw [← List.drop_eq_getElem_cons ahead, List.take_append_drop]⟩
  rw [List.append_assoc, List.cons_append] at perm sorted
  subst length
  have whole := (leaning_perm path last (more ++ behind) 0).trans perm
  have lengths := perm.length_eq
  rw [List.length_append, List.length_cons] at lengths
  have fills : Fills path (more ++ behind) 0 := by
    rw [Fills]
    omega
  have total := whole.length_eq
  have positive := Nat.two_pow_pos path.length
  refine ⟨_, whole, leaning_ordered fills sorted, ?_⟩
  have final := List.getElem?_eq_getElem
    (show items.length - 1 < (leaning path last (more ++ behind) 0).length by omega)
  have bottom : ∀ b ∈ items,
      keyAt key (replaceRoot (leaning path last (more ++ behind) 0)) 0 ≤ key b := by
    intro b member
    obtain ⟨i, inside, rfl⟩ := List.mem_iff_getElem.mp (whole.mem_iff.mpr member)
    rw [keyAt_replaceRoot key (by omega), if_pos rfl, total, keyAt_of_getElem? final]
    rcases Nat.lt_or_ge i (items.length - 1) with earlier | same
    · apply leaning_sorted fills sorted earlier _
        (List.getElem?_eq_getElem inside) final
      intro k bound place
      have wide := Nat.pow_le_pow_right (show 0 < 2 by decide) bound
      omega
    · obtain rfl : i = items.length - 1 := by omega
      exact le_refl _
  have length := length_replaceRoot (leaning path last (more ++ behind) 0)
  refine leaning_sinks fills sorted (by omega) ?_ (by omega) ?_ (Nat.le_refl _)
  · intro i lower inside
    rw [keyAt_replaceRoot key (by omega), if_neg (by omega)]
  · intro a member
    have inside : a ∈ path ++ last :: more := by
      rcases List.mem_append.mp member with left | right
      · exact List.mem_append_left _ left
      · rw [List.mem_singleton.mp right]
        exact List.mem_append_right _ List.mem_cons_self
    obtain ⟨b, held, less⟩ := before a inside
    exact (bottom b held).trans_lt less

end

end BinaryHeap
