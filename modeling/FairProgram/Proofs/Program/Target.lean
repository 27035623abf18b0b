import FairProgram.Program
import FairProgram.Proofs.Classifier.Assignments
import FairProgram.Proofs.Population.Growth
import FairProgram.Proofs.Program.Classifier

/-!
# The target of a program

A program leaves the target out of the population and has its classifier assign it. The classifier
may be a scaler alone, which assigns no target: only where a stage decides is the target assigned, or
where it has the name of a scaled feature (`Program.compile_decides`).
-/

namespace FairProgram

namespace Program

variable {d columns : Dataset} {c : Classifier} {r : Request} {text : String}

theorem compile_ok (h : compile d c r = .ok text) :
    ∃ columns features model e, population d r.target = .ok columns ∧
      Program.features columns r.features = .ok features ∧
      Population.compile r.params columns = .ok model ∧
      c.unroll r.params r.target features = .ok e ∧
      text = (Block.population r.params model r.sensitive r.qualified).textAfter true ++
        (Block.classifier r.params e.rules r.fairness).textAfter false := by
  obtain ⟨_, hinputs, h⟩ := bind_ok h
  obtain ⟨_, -, hinputs⟩ := bind_ok hinputs
  obtain ⟨columns, hcolumns, hinputs⟩ := bind_ok hinputs
  obtain ⟨features, hfeatures, hinputs⟩ := bind_ok hinputs
  cases hinputs
  obtain ⟨model, hmodel, h⟩ := bind_ok h
  obtain ⟨e, he, h⟩ := bind_ok h
  refine ⟨columns, features, model, e, mapError_ok hcolumns, mapError_ok hfeatures,
    mapError_ok hmodel, mapError_ok he, ?_⟩
  dsimp only at h
  split at h
  · rename_i block hblock
    cases h
    rw [Block.classifier?_ok hblock]
  · cases h

/-- In a program, every path through the rules of the classifier assigns the target, before the
declarations, exactly where a stage of the classifier decides or where the target has the name of a
scaled feature. -/
theorem compile_decides (h : compile d c r = .ok text) :
    ∃ columns features model e, population d r.target = .ok columns ∧
      Program.features columns r.features = .ok features ∧
      Population.compile r.params columns = .ok model ∧
      c.unroll r.params r.target features = .ok e ∧
      text = (Block.population r.params model r.sensitive r.qualified).textAfter true ++
        (Block.classifier r.params e.rules r.fairness).textAfter false ∧
      (Block.classifier r.params e.rules r.fairness).body =
        e.rules.lines r.params.literalPlaces 1 ++
          r.fairness.map (·.declaration r.params.literalPlaces "fairnessTarget") ∧
      e.rules.paths ≠ [] ∧
      ((∀ path ∈ e.rules.paths, .write r.target ∈ path) ↔
        (∃ stage ∈ c.stages, stage.decides = true) ∨
          ∃ feature ∈ features, ∃ times < c.stages.countP Classifier.isScaler,
            r.target = Scaler.scaledName^[times + 1] feature) := by
  obtain ⟨columns, features, model, e, hcolumns, hfeatures, hmodel, he, htext⟩ := compile_ok h
  refine ⟨columns, features, model, e, hcolumns, hfeatures, hmodel, he, htext, rfl,
    e.rules.paths_ne_nil, ?_⟩
  have hall : (∀ path ∈ e.rules.paths, .write r.target ∈ path) ↔
      r.target ∈ Classifier.stagesAssigned r.target features c.stages := by
    obtain ⟨path, hp⟩ := List.exists_mem_of_ne_nil _ e.rules.paths_ne_nil
    exact ⟨fun h => (c.write_mem_path_iff he hp).mp (h path hp),
      fun h path hp => (c.write_mem_path_iff he hp).mpr h⟩
  rw [hall, Classifier.mem_stagesAssigned]
  constructor
  · rintro (hscaled | ⟨stage, hs, hneuron⟩ | ⟨-, hdecides⟩)
    · exact .inr hscaled
    · exact .inl ⟨stage, hs, Classifier.decides_of_mem_neurons hneuron⟩
    · exact .inl hdecides
  · rintro (hdecides | hscaled)
    · exact .inr (.inr ⟨rfl, hdecides⟩)
    · exact .inl hscaled

theorem compile_decides_pair :
    ∃ text, compile Population.pair Classifier.scaledTwice { target := "score" } = .ok text ∧
      ∃ e, Classifier.scaledTwice.unroll {} "score" ["group"] = .ok e ∧
        ∀ path ∈ e.rules.paths, .write "score" ∈ path := by
  obtain ⟨text, h⟩ : ∃ text,
      compile Population.pair Classifier.scaledTwice { target := "score" } = .ok text := ⟨_, rfl⟩
  obtain ⟨columns, features, model, e, hcolumns, hfeatures, -, he, -, -, -, hiff⟩ :=
    compile_decides h
  cases hcolumns
  cases hfeatures
  have hstage : Classifier.linear ⟨[1], 0⟩ ∈ Classifier.scaledTwice.stages := by
    simp [Classifier.scaledTwice, Classifier.stages, Classifier.allStages]
  exact ⟨text, h, e, he, hiff.mpr (.inl ⟨_, hstage, rfl⟩)⟩

/-- The program of a scaler alone, which declares its target and does not assign it. -/
theorem exists_undecided_target :
    ∃ model e, compile Population.pair (.scaler ⟨none, none⟩)
        { target := "score", fairness := [⟨"score", .greater, 2.5⟩] } =
          .ok ((Block.population {} model [] []).textAfter true ++
            (Block.classifier {} e.rules [⟨"score", .greater, 2.5⟩]).textAfter false) ∧
      (Classifier.scaler ⟨none, none⟩).unroll {} "score" ["group"] = .ok e ∧
      e.rules.paths ≠ [] ∧ ∀ path ∈ e.rules.paths, .write "score" ∉ path := by
  obtain ⟨text, h⟩ : ∃ text, compile Population.pair (.scaler ⟨none, none⟩)
      { target := "score", fairness := [⟨"score", .greater, 2.5⟩] } = .ok text := ⟨_, rfl⟩
  obtain ⟨columns, features, model, e, hcolumns, hfeatures, -, he, rfl⟩ := compile_ok h
  cases hcolumns
  cases hfeatures
  refine ⟨model, e, h, he, e.rules.paths_ne_nil, fun path hp hwrite => ?_⟩
  exact absurd ((Classifier.write_mem_path_iff _ he hp).mp hwrite) (by decide)

end Program

end FairProgram
