import FairProgram.Proofs.Classifier.Unrolling

/-!
# Variables along the paths of a rule

A path through a rule reads and writes variables in order. A rule `Provides` names, given known ones,
when each of its paths reads only names that are known or written before, and ends with the names
provided known or written. The rules of a classifier provide the features that are visible behind
them (`Classifier.unroll_provides`).
-/

namespace FairProgram

inductive Access where
  | read (name : String)
  | write (name : String)

/-- The variables of an expression from left to right. -/
def Expr.reads : Expr → List String
  | .var name => [name]
  | .real _ | .int _ | .euler => []
  | .neg inner | .paren inner => inner.reads
  | .binary _ left right => left.reads ++ right.reads

def Condition.reads (c : Condition) : List String :=
  c.left.reads ++ c.right.reads

namespace Rule

mutual
/-- The accesses along each path through a rule, whatever its conditions say. -/
def paths : Rule → List (List Access)
  | .leaf target _ => [[.write target]]
  | .choice condition yes no =>
    (yes.paths ++ no.paths).map (condition.reads.map Access.read ++ ·)
  | .guarded condition yes => (yes.paths ++ [[]]).map (condition.reads.map Access.read ++ ·)
  | .sequence statements => statementPaths statements
def statementPaths : List Statement → List (List Access)
  | [] => [[]]
  | .assign name value :: rest =>
    (statementPaths rest).map (value.reads.map Access.read ++ .write name :: ·)
  | .rule rule :: rest => rule.paths.flatMap fun path => (statementPaths rest).map (path ++ ·)
end

end Rule

-- ---------------------------------------------------------------------------
-- Paths
-- ---------------------------------------------------------------------------

/-- Every name that a path reads is known at its start or written before it is read. -/
def Supplied (known : List String) (path : List Access) : Prop :=
  ∀ before name after, path = before ++ .read name :: after →
    name ∈ known ∨ .write name ∈ before

section
variable {known provided : List String} {path later : List Access}

theorem supplied_write (name : String) : Supplied known [.write name] := by
  intro before other after h
  cases before <;> simp at h

theorem supplied_reads {names : List String} (h : names ⊆ known) :
    Supplied known (names.map .read) := by
  intro before name after heq
  have hmem : Access.read name ∈ names.map Access.read := by simp [heq]
  obtain ⟨_, hname, ⟨⟩⟩ := List.mem_map.mp hmem
  exact .inl (h hname)

theorem Supplied.append (hp : Supplied known path) (hl : Supplied provided later)
    (h : ∀ name ∈ provided, name ∈ known ∨ .write name ∈ path) : Supplied known (path ++ later) := by
  intro before name after heq
  rcases List.append_eq_append_iff.mp heq with ⟨between, rfl, hread⟩ | ⟨between, rfl, hread⟩
  · rcases hl between name after hread with hname | hwrite
    · exact (h name hname).imp_right fun hw => List.mem_append_left _ hw
    · exact .inr (List.mem_append_right _ hwrite)
  · cases between with
    | nil =>
      rw [List.nil_append] at hread
      rcases hl [] name after hread.symm with hname | hwrite
      · simpa using h name hname
      · cases hwrite
    | cons access rest =>
      cases hread
      exact hp before name rest rfl

end

-- ---------------------------------------------------------------------------
-- What rules provide
-- ---------------------------------------------------------------------------

/-- Along each of these paths nothing is read that is neither known nor written before, and at its
end the names provided are known or written. -/
def Provides (known : List String) (paths : List (List Access)) (provided : List String) : Prop :=
  ∀ path ∈ paths, Supplied known path ∧
    ∀ name ∈ provided, name ∈ known ∨ .write name ∈ path

section
variable {known provided between : List String} {paths later : List (List Access)}

theorem Provides.mono (h : Provides known paths provided) (hs : between ⊆ provided) :
    Provides known paths between :=
  fun path hp => ⟨(h path hp).1, fun name hn => (h path hp).2 name (hs hn)⟩

theorem Provides.append (hp : Provides known paths between) (hl : Provides between later provided) :
    Provides known (paths.flatMap fun path => later.map (path ++ ·)) provided := by
  intro whole hw
  obtain ⟨path, hpath, hw⟩ := List.mem_flatMap.mp hw
  obtain ⟨rest, hrest, rfl⟩ := List.mem_map.mp hw
  obtain ⟨hs, hbetween⟩ := hp path hpath
  obtain ⟨hs', hprovided⟩ := hl rest hrest
  refine ⟨hs.append hs' hbetween, fun name hn => ?_⟩
  rcases hprovided name hn with hname | hwrite
  · exact (hbetween name hname).imp_right fun hw => List.mem_append_left _ hw
  · exact .inr (List.mem_append_right _ hwrite)

theorem Provides.either (hp : Provides known paths provided) (hl : Provides known later provided) :
    Provides known (paths ++ later) provided := by
  intro path hpath
  rcases List.mem_append.mp hpath with hpath | hpath
  · exact hp path hpath
  · exact hl path hpath

theorem provides_reads {names : List String} (h : names ⊆ known) :
    Provides known [names.map .read] known := by
  intro path hp
  obtain rfl := List.mem_singleton.mp hp
  exact ⟨supplied_reads h, fun name hn => .inl hn⟩

theorem provides_write (name : String) : Provides known [[.write name]] (name :: known) := by
  intro path hp
  obtain rfl := List.mem_singleton.mp hp
  refine ⟨supplied_write name, fun other ho => ?_⟩
  rcases List.mem_cons.mp ho with rfl | ho
  · exact .inr List.mem_cons_self
  · exact .inl ho

end

namespace Rule

variable {known provided between : List String}

theorem statementPaths_append (first second : List Statement) :
    statementPaths (first ++ second) =
      (statementPaths first).flatMap fun path => (statementPaths second).map (path ++ ·) := by
  induction first with
  | nil => simp [statementPaths]
  | cons statement rest ih =>
    cases statement with
    | assign name value =>
      simp [statementPaths, ih, List.flatMap_map, List.map_flatMap, Function.comp_def]
    | rule rule =>
      simp [statementPaths, ih, List.flatMap_assoc, List.flatMap_map, List.map_flatMap,
        Function.comp_def]

theorem statementPaths_statements (rule : Rule) : statementPaths rule.statements = rule.paths := by
  cases rule <;> simp [statements, statementPaths, paths]

theorem paths_andThen (first second : Rule) : (first.andThen second).paths =
    first.paths.flatMap fun path => second.paths.map (path ++ ·) := by
  rw [andThen, paths, statementPaths_append, statementPaths_statements, statementPaths_statements]

mutual
theorem paths_ne_nil : (rule : Rule) → rule.paths ≠ []
  | .leaf _ _ => List.cons_ne_nil _ _
  | .choice _ yes _ => by simp [paths, paths_ne_nil yes]
  | .guarded _ _ => by simp [paths]
  | .sequence statements => statementPaths_ne_nil statements
theorem statementPaths_ne_nil : (statements : List Statement) → statementPaths statements ≠ []
  | [] => List.cons_ne_nil _ _
  | .assign _ _ :: rest => by simp [statementPaths, statementPaths_ne_nil rest]
  | .rule rule :: rest => by
    obtain ⟨path, hp⟩ := List.exists_mem_of_ne_nil _ (paths_ne_nil rule)
    simp only [statementPaths, ne_eq, List.flatMap_eq_nil_iff, List.map_eq_nil_iff]
    exact fun h => statementPaths_ne_nil rest (h path hp)
end

theorem provides_choice {condition : Condition} {yes no : Rule} (hc : condition.reads ⊆ known)
    (hyes : Provides known yes.paths provided) (hno : Provides known no.paths provided) :
    Provides known (choice condition yes no).paths provided := by
  simpa [paths] using (provides_reads hc).append (hyes.either hno)

theorem provides_guarded {condition : Condition} {yes : Rule} (hc : condition.reads ⊆ known)
    (hyes : Provides known yes.paths known) :
    Provides known (guarded condition yes).paths known := by
  have hskip : Provides known [[]] known := provides_reads (List.nil_subset known)
  simpa [paths] using (provides_reads hc).append (hyes.either hskip)

theorem provides_nil : Provides known (statementPaths []) known := by
  simpa [statementPaths] using provides_reads (List.nil_subset known)

theorem provides_append {first second : List Statement}
    (h : Provides known (statementPaths first) between)
    (h' : Provides between (statementPaths second) provided) :
    Provides known (statementPaths (first ++ second)) provided := by
  rw [statementPaths_append]
  exact h.append h'

theorem provides_assign {name : String} {value : Expr} (h : value.reads ⊆ known) :
    Provides known (statementPaths [.assign name value]) (name :: known) := by
  simpa [statementPaths] using (provides_reads h).append (provides_write name)

theorem provides_rule {rule : Rule} (h : Provides known rule.paths provided) :
    Provides known (statementPaths [.rule rule]) provided := by
  simpa [statementPaths] using h

end Rule

end FairProgram
