import FairProgram.Population.ColumnSet
import Mathlib.Data.Finset.Card
import Mathlib.Logic.Function.Basic

/-!
# Sets of columns are finite sets

No word holds a bit at the bound or beyond, so the words of a set stand for a finite set of columns
(`ColumnSet.Represents`), and what a set says of itself is true of that one: its members in order,
their number, whether there are none, whether another set is the same. An operation on numbered sets
does to the words what it does to finite sets (`Command.onWords?_represents`), and so does every run
of operations (`run_represents`).
-/

namespace FairProgram.ColumnSet

-- ---------------------------------------------------------------------------
-- Words
-- ---------------------------------------------------------------------------

theorem sum_weight (words : List (BitVec 64)) :
    Whole.sum (words.map weight) = (List.range (64 * words.length)).countP fun column =>
      (words.getD (column / 64) 0#64).getLsbD (column % 64) := by
  induction words with
  | nil => rfl
  | cons word words ih =>
    rw [List.map_cons, Whole.sum_cons, ih, List.length_cons, Nat.mul_succ, Nat.add_comm (64 * _),
      List.range_add, List.countP_append, List.countP_map, weight]
    -- The first word has the columns below 64, the others have theirs moved up by 64.
    refine congrArg₂ (· + ·) (List.countP_congr fun column h => ?_)
      (List.countP_congr fun column _ => ?_)
    · have inside : column < 64 := List.mem_range.mp h
      simp [Nat.div_eq_of_lt inside, Nat.mod_eq_of_lt inside]
    · have place : (64 + column) / 64 = column / 64 + 1 := by omega
      have offset : (64 + column) % 64 = column % 64 := by omega
      simp [place, offset]

theorem eq_of_bit {s t : ColumnSet} (hbound : s.bound = t.bound)
    (hbit : ∀ column, s.bit column = t.bit column) : s = t := by
  have hwords : s.words = t.words := by
    refine List.ext_getElem (by rw [s.length_words, t.length_words, hbound]) fun place hs ht => ?_
    refine BitVec.eq_of_getLsbD_eq fun offset inside => ?_
    have hplace : (64 * place + offset) / 64 = place := by omega
    have hoffset : (64 * place + offset) % 64 = offset := by omega
    simpa [bit, hplace, hoffset, hs, ht] using hbit (64 * place + offset)
  cases s
  cases t
  cases hbound
  cases hwords
  rfl

theorem isEmpty_iff_eq_empty {s : ColumnSet} : s.isEmpty = true ↔ s = empty s.bound := by
  constructor
  · intro h
    have zero : ∀ word ∈ s.words, word = 0#64 := by simpa [isEmpty] using h
    refine eq_of_bit rfl fun column => ?_
    rw [bit_empty, bit, List.getD_eq_getElem?_getD]
    cases stored : s.words[column / 64]? with
    | none => rw [Option.getD_none, BitVec.getLsbD_zero]
    | some word =>
      rw [Option.getD_some, zero word (List.mem_of_getElem? stored), BitVec.getLsbD_zero]
  · intro h
    rw [h]
    simp [isEmpty, empty]

theorem pairwise_toList (s : ColumnSet) : s.toList.Pairwise (· < ·) :=
  List.pairwise_lt_range.filter _

-- ---------------------------------------------------------------------------
-- The finite set that words stand for
-- ---------------------------------------------------------------------------

/-- The bits that are set, in all the words, are those of the members. All of these are below the
bound. -/
structure Represents (s : ColumnSet) (bound : Nat) (members : Finset Nat) : Prop where
  bound_eq : s.bound = bound
  bit_iff : ∀ column, s.bit column = true ↔ column ∈ members
  lt_bound : ∀ column ∈ members, column < bound

section
variable {s t : ColumnSet} {bound column : Nat} {members others : Finset Nat}

theorem represents_empty (bound : Nat) : (empty bound).Represents bound ∅ :=
  ⟨rfl, by simp, by simp⟩

namespace Represents

theorem insert (h : s.Represents bound members) (hc : column < bound) :
    (s.insert column).Represents bound (members ∪ {column}) where
  bound_eq := (bound_insert s column).trans h.bound_eq
  bit_iff other := by
    rw [bit_insert (h.bound_eq ▸ hc), Bool.or_eq_true, decide_eq_true_iff, h.bit_iff,
      Finset.mem_union, Finset.mem_singleton, or_comm]
  lt_bound other ho := by
    obtain ho | ho := Finset.mem_union.mp ho
    · exact h.lt_bound other ho
    · exact Finset.mem_singleton.mp ho ▸ hc

theorem insertAll {columns : List Nat} (h : s.Represents bound members)
    (hc : ∀ column ∈ columns, column < bound) :
    (s.insertAll columns).Represents bound (members ∪ columns.toFinset) := by
  induction columns generalizing s members with
  | nil => simpa [ColumnSet.insertAll] using h
  | cons first rest ih =>
    have hrest := ih (h.insert (hc first List.mem_cons_self))
      fun column hm => hc column (List.mem_cons_of_mem _ hm)
    rw [Finset.union_assoc] at hrest
    rwa [List.toFinset_cons, Finset.insert_eq]

theorem union (h : s.Represents bound members) (ht : t.Represents bound others) :
    (s.union t).Represents bound (members ∪ others) where
  bound_eq := h.bound_eq
  bit_iff column := by
    rw [bit_union (h.bound_eq.trans ht.bound_eq.symm), Bool.or_eq_true, h.bit_iff, ht.bit_iff,
      Finset.mem_union]
  lt_bound column hm := (Finset.mem_union.mp hm).elim (h.lt_bound column) (ht.lt_bound column)

theorem inter (h : s.Represents bound members) (ht : t.Represents bound others) :
    (s.inter t).Represents bound (members ∩ others) where
  bound_eq := h.bound_eq
  bit_iff column := by
    rw [bit_inter (h.bound_eq.trans ht.bound_eq.symm), Bool.and_eq_true, h.bit_iff, ht.bit_iff,
      Finset.mem_inter]
  lt_bound column hm := h.lt_bound column (Finset.mem_inter.mp hm).1

theorem contains_iff (h : s.Represents bound members) (column : Nat) :
    s.contains column = true ↔ column ∈ members := by
  rw [contains_eq, Bool.and_eq_true, decide_eq_true_iff, h.bit_iff, h.bound_eq]
  exact and_iff_right_of_imp (h.lt_bound column)

theorem size_eq (h : s.Represents bound members) : s.size = members.card := by
  have hmembers : members = ((List.range (64 * s.words.length)).filter s.bit).toFinset := by
    ext column
    rw [List.mem_toFinset, List.mem_filter, List.mem_range, h.bit_iff, s.length_words, h.bound_eq]
    refine (and_iff_right_of_imp fun hm => ?_).symm
    have := h.lt_bound column hm
    omega
  rw [hmembers, List.toFinset_card_of_nodup (List.nodup_range.filter _),
    ← List.countP_eq_length_filter]
  exact sum_weight s.words

theorem eq_iff (h : s.Represents bound members) (ht : t.Represents bound others) :
    s = t ↔ members = others := by
  constructor
  · rintro rfl
    ext column
    rw [← h.bit_iff, ht.bit_iff]
  · rintro rfl
    refine eq_of_bit (h.bound_eq.trans ht.bound_eq.symm) fun column => ?_
    rw [Bool.eq_iff_iff, h.bit_iff, ht.bit_iff]

theorem isEmpty_iff (h : s.Represents bound members) : s.isEmpty = true ↔ members = ∅ := by
  rw [isEmpty_iff_eq_empty, h.bound_eq, h.eq_iff (represents_empty bound)]

end Represents

end

-- ---------------------------------------------------------------------------
-- Operations on numbered sets
-- ---------------------------------------------------------------------------

/-- An operation that makes the set `target` or changes it. -/
inductive Command
  | new (target : Nat)
  | insert (target column : Nat)
  | extend (target : Nat) (columns : List Nat)
  | union (target other : Nat)
  | inter (target other : Nat)
  | clone (target other : Nat)

namespace Command

def target : Command → Nat
  | new target | insert target _ | extend target _ | union target _ | inter target _
  | clone target _ => target

/-- The columns that are added. -/
def columns : Command → List Nat
  | insert _ column => [column]
  | extend _ columns => columns
  | _ => []

/-- What the target becomes and what the operation answers. It fails at a column that is not below
the bound. -/
def onWords? (bound : Nat) (sets : Nat → ColumnSet) : Command → Option (ColumnSet × Option Bool)
  | new _ => some (empty bound, none)
  | insert target column => do
    let (s, fresh) ← (sets target).insert? column
    return (s, some fresh)
  | extend target columns =>
    let (s, whole) := (sets target).extend columns
    if whole then some (s, none) else none
  | union target other => some ((sets target).union (sets other), none)
  | inter target other => some ((sets target).inter (sets other), none)
  | clone _ other => some (sets other, none)

def onMembers (held : Nat → Finset Nat) : Command → Finset Nat × Option Bool
  | new _ => (∅, none)
  | insert target column => (held target ∪ {column}, some (decide (column ∉ held target)))
  | extend target columns => (held target ∪ columns.toFinset, none)
  | union target other => (held target ∪ held other, none)
  | inter target other => (held target ∩ held other, none)
  | clone _ other => (held other, none)

end Command

/-- Carries out operations in turn. Gives the sets after them and what each operation answers. -/
def runWords? (bound : Nat) :
    List Command → (Nat → ColumnSet) → Option ((Nat → ColumnSet) × List (Option Bool))
  | [], sets => some (sets, [])
  | command :: rest, sets => do
    let (s, answer) ← command.onWords? bound sets
    let (sets, answers) ← runWords? bound rest (Function.update sets command.target s)
    return (sets, answer :: answers)

def runMembers : List Command → (Nat → Finset Nat) → (Nat → Finset Nat) × List (Option Bool)
  | [], held => (held, [])
  | command :: rest, held =>
    let (members, answer) := command.onMembers held
    let (held, answers) := runMembers rest (Function.update held command.target members)
    (held, answer :: answers)

section
variable {bound : Nat} {sets : Nat → ColumnSet} {held : Nat → Finset Nat}

theorem Command.onWords?_represents (h : ∀ i, (sets i).Represents bound (held i))
    (command : Command) (hc : ∀ column ∈ command.columns, column < bound) :
    ∃ s, command.onWords? bound sets = some (s, (command.onMembers held).2) ∧
      s.Represents bound (command.onMembers held).1 := by
  cases command with
  | new target => exact ⟨empty bound, rfl, represents_empty bound⟩
  | insert target column =>
    have inside : column < bound := hc column List.mem_cons_self
    have fresh : (!(sets target).contains column) = decide (column ∉ held target) := by
      rw [Bool.eq_iff_iff, Bool.not_eq_true', Bool.eq_false_iff, ne_eq,
        (h target).contains_iff, decide_eq_true_iff]
    refine ⟨(sets target).insert column, ?_, (h target).insert inside⟩
    rw [onWords?, insert?_eq ((h target).bound_eq ▸ inside), fresh]
    rfl
  | extend target columns =>
    refine ⟨(sets target).insertAll columns, ?_, (h target).insertAll hc⟩
    rw [onWords?, extend_eq _ ((h target).bound_eq ▸ hc)]
    rfl
  | union target other => exact ⟨_, rfl, (h target).union (h other)⟩
  | inter target other => exact ⟨_, rfl, (h target).inter (h other)⟩
  | clone target other => exact ⟨_, rfl, h other⟩

theorem Represents.update {s : ColumnSet} {members : Finset Nat} {target : Nat}
    (h : ∀ i, (sets i).Represents bound (held i)) (hs : s.Represents bound members) (i : Nat) :
    (Function.update sets target s i).Represents bound (Function.update held target members i) := by
  by_cases same : i = target
  · subst same
    rwa [Function.update_self, Function.update_self]
  · rw [Function.update_of_ne same, Function.update_of_ne same]
    exact h i

theorem runWords?_represents (h : ∀ i, (sets i).Represents bound (held i))
    (commands : List Command)
    (hc : ∀ command ∈ commands, ∀ column ∈ command.columns, column < bound) :
    ∃ sets', runWords? bound commands sets = some (sets', (runMembers commands held).2) ∧
      ∀ i, (sets' i).Represents bound ((runMembers commands held).1 i) := by
  induction commands generalizing sets held with
  | nil => exact ⟨sets, rfl, h⟩
  | cons command rest ih =>
    obtain ⟨s, hs, represents⟩ := command.onWords?_represents h (hc command List.mem_cons_self)
    obtain ⟨sets', hrun, represents'⟩ := ih (Represents.update h represents)
      fun later hl => hc later (List.mem_cons_of_mem _ hl)
    refine ⟨sets', ?_, represents'⟩
    rw [runWords?, hs]
    simp only [Option.bind_eq_bind, Option.bind_some, hrun]
    rfl

/-- A set that no operation makes or changes stays. -/
theorem runWords?_frame {commands : List Command} {sets' : Nat → ColumnSet}
    {answers : List (Option Bool)} {i : Nat}
    (hrun : runWords? bound commands sets = some (sets', answers))
    (hi : ∀ command ∈ commands, command.target ≠ i) : sets' i = sets i := by
  induction commands generalizing sets answers with
  | nil =>
    cases hrun
    rfl
  | cons command rest ih =>
    obtain ⟨⟨s, answer⟩, -, hrun⟩ := Option.bind_eq_some_iff.mp hrun
    obtain ⟨⟨after, later⟩, hrest, hreturn⟩ := Option.bind_eq_some_iff.mp hrun
    cases hreturn
    rw [ih hrest fun later hl => hi later (List.mem_cons_of_mem _ hl)]
    exact Function.update_of_ne (hi command List.mem_cons_self).symm _ _

theorem runWords?_append (first rest : List Command) (sets : Nat → ColumnSet) :
    runWords? bound (first ++ rest) sets = (do
      let (sets, answers) ← runWords? bound first sets
      let (sets, later) ← runWords? bound rest sets
      return (sets, answers ++ later)) := by
  induction first generalizing sets with
  | nil =>
    simp only [List.nil_append, runWords?, Option.bind_eq_bind, Option.bind_some]
    cases runWords? bound rest sets <;> rfl
  | cons command first ih =>
    simp only [List.cons_append, runWords?, ih, Option.bind_eq_bind, Option.bind_assoc,
      Option.pure_def, Option.bind_some]

/-- Operations on sets of columns, carried out in turn on any number of sets over the same columns,
do what they do to finite sets. None of them fails, insertions answer alike, and every set afterwards
says of itself what is true of the finite set, and stays as it is while others are changed. -/
theorem run_represents (bound : Nat) (commands : List Command)
    (h : ∀ command ∈ commands, ∀ column ∈ command.columns, column < bound) :
    ∃ sets held answers, runWords? bound commands (fun _ => empty bound) = some (sets, answers) ∧
      runMembers commands (fun _ => ∅) = (held, answers) ∧
      (∀ i, (sets i).bound = bound ∧
        (∀ column, (sets i).contains column = true ↔ column ∈ held i) ∧
        (sets i).size = (held i).card ∧
        ((sets i).isEmpty = true ↔ held i = ∅) ∧
        (sets i).toList.Pairwise (· < ·) ∧
        (∀ column, column ∈ (sets i).toList ↔ column ∈ held i)) ∧
      (∀ i j, sets i = sets j ↔ held i = held j) ∧
      ∀ first rest, commands = first ++ rest → ∃ earlier answers,
        runWords? bound first (fun _ => empty bound) = some (earlier, answers) ∧
        ∀ i, (∀ command ∈ rest, command.target ≠ i) → sets i = earlier i := by
  obtain ⟨sets, hrun, represents⟩ :=
    runWords?_represents (fun _ => represents_empty bound) commands h
  refine ⟨sets, _, _, hrun, rfl, fun i => ?_, fun i j => (represents i).eq_iff (represents j), ?_⟩
  · refine ⟨(represents i).bound_eq, (represents i).contains_iff, (represents i).size_eq,
      (represents i).isEmpty_iff, (sets i).pairwise_toList, fun column => ?_⟩
    rw [mem_toList, (represents i).contains_iff]
  · rintro first rest rfl
    rw [runWords?_append] at hrun
    obtain ⟨⟨earlier, answers⟩, hfirst, hrun⟩ := Option.bind_eq_some_iff.mp hrun
    obtain ⟨⟨after, later⟩, hrest, hreturn⟩ := Option.bind_eq_some_iff.mp hrun
    obtain ⟨rfl, -⟩ := Prod.mk.inj (Option.some.inj hreturn)
    exact ⟨earlier, answers, hfirst, fun i hi => runWords?_frame hrest hi⟩

end

/-- Operations at the first and the last columns of words, the last of them used in part. -/
def acrossWords : List Command :=
  [.insert 0 63, .insert 0 129, .insert 0 129, .clone 1 0, .extend 1 [64, 128], .new 2, .union 2 1,
    .inter 2 0]

theorem run_represents_acrossWords : ∃ sets answers,
    runWords? 130 acrossWords (fun _ => empty 130) = some (sets, answers) ∧
      answers = [some true, some true, some false, none, none, none, none, none] ∧
      (sets 0).size = 2 ∧ (sets 1).size = 4 ∧ sets 2 = sets 0 ∧ (sets 3).isEmpty = true := by
  obtain ⟨sets, held, answers, hrun, hmembers, hsets, hequal, -⟩ :=
    run_represents 130 acrossWords (by decide)
  obtain ⟨rfl, rfl⟩ := Prod.mk.inj hmembers
  exact ⟨sets, _, hrun, by decide, (hsets 0).2.2.1, (hsets 1).2.2.1, (hequal 2 0).mpr (by decide),
    (hsets 3).2.2.2.1.mpr (by decide)⟩

end FairProgram.ColumnSet
