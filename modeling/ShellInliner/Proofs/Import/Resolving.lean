import ShellInliner.Import
import ShellInliner.Proofs.Path.Normal

/-! # Where imports lead

    The file that an argument means is given by its normal path, and a normal path
    means the same file for every script and with every settings.  An argument that
    only leads to a file with the extension behind it means what it means with the
    extension written out. -/

namespace ShellInliner

variable {d : Disk}

/-! ### Files -/

/-- No file is found where a path stays at the root. -/
theorem Disk.isFile_root_dots {p text : List Char} (absolute : Path.isAbsolute p = true)
    (root : p = Path.rootSlashes p) (dots : text = ['.'] ∨ text = ['.', '.']) :
    d.isFile (p ++ text) = false := by
  rcases Path.rootSlashes_of_absolute absolute with one | two
  · rw [root, one]
    rcases dots with rfl | rfl <;> rfl
  · rw [root, two]
    rcases dots with rfl | rfl <;> rfl

namespace Importer

variable (i : Importer)

theorem resolvePath_eq_ok_iff {argument p : List Char} {line : Option Int} :
    i.resolvePath d argument line = .ok p ↔ (i.candidates d argument).find? d.isFile = some p := by
  unfold resolvePath
  cases chosen : (i.candidates d argument).find? d.isFile <;> simp [chosen]

/-- The path of a file that an argument means is normal. -/
theorem normal_of_resolvePath (rooted : Path.isAbsolute d.cwd = true)
    (flat : '/' ∉ i.settings.extension.toList) {argument p : List Char} {line : Option Int}
    (found : i.resolvePath d argument line = .ok p) : Path.Normal p ∧ d.isFile p = true := by
  have chosen := i.resolvePath_eq_ok_iff.mp found
  have file : d.isFile p = true := List.find?_some chosen
  refine ⟨?_, file⟩
  have literal := Path.normal_absolute rooted (Path.join (i.baseDirectory d) argument)
  have mem := List.mem_of_find?_eq_some chosen
  simp only [candidates, Path.candidates, List.mem_cons, List.not_mem_nil, or_false] at mem
  rcases mem with rfl | rfl
  · exact literal
  · rcases literal.append flat with normal | ⟨root, dots⟩
    · exact normal
    · -- The extension leads nowhere from the root, and the root is no file.
      rw [Disk.isFile_root_dots literal.absolute root dots] at file
      cases file

/-- A normal path of a file means that file, for every script and every settings. -/
theorem resolvePath_of_normal {p : List Char} (normal : Path.Normal p) (file : d.isFile p = true)
    (line : Option Int) : i.resolvePath d p line = .ok p := by
  apply i.resolvePath_eq_ok_iff.mpr
  simp only [candidates, Path.candidates, normal.absolute_eq]
  exact List.find?_cons_of_pos file

/-- What an argument means is an absolute path that means itself, for every script and
    every settings; and where only the extension makes an argument lead to a file, the
    extension may as well be written out. -/
theorem resolvePath_stable (rooted : Path.isAbsolute d.cwd = true)
    (flat : '/' ∉ i.settings.extension.toList) (argument : List Char) (line : Option Int) :
    (∀ p, i.resolvePath d argument line = .ok p →
      Path.isAbsolute p = true ∧
        ∀ (j : Importer) (line' : Option Int), j.resolvePath d p line' = .ok p) ∧
    ∀ literal extended last, i.candidates d argument = [literal, extended] →
      (Path.components argument).getLast? = some last → Path.IsName last →
      d.isFile literal = false → d.isFile extended = true →
      i.resolvePath d argument line = .ok extended ∧
        i.resolvePath d (argument ++ i.settings.extension.toList) line = .ok extended := by
  constructor
  · intro p found
    obtain ⟨normal, file⟩ := i.normal_of_resolvePath rooted flat found
    exact ⟨normal.absolute, fun j line' => j.resolvePath_of_normal normal file line'⟩
  · intro literal extended last both final name absent file
    constructor
    · apply i.resolvePath_eq_ok_iff.mpr
      rw [both, List.find?_cons_of_neg (by simp [absent]), List.find?_cons_of_pos file]
    · -- With the extension written out, the first candidate is the second one from before.
      have same : i.candidates d (argument ++ i.settings.extension.toList) =
          [extended, extended ++ i.settings.extension.toList] := by
        simp only [candidates, Path.candidates, List.cons.injEq, and_true] at both ⊢
        obtain ⟨-, rfl⟩ := both
        rw [Path.absolute_append final name flat]
        exact ⟨rfl, rfl⟩
      apply i.resolvePath_eq_ok_iff.mpr
      rw [same, List.find?_cons_of_pos file]

/-- A script in one directory imports a file in another by a path that is not normal and
    lacks the extension. -/
theorem resolvePath_stable_above :
    let importer : Importer := ⟨some "bin/main.sh", {}⟩
    let disk := (Disk.blank "/w".toList "/home".toList).makeFile
      ["w".toList, "lib".toList, "util.sh".toList] []
    let file := "/w/lib/util.sh".toList
    importer.resolvePath disk "..//lib/./util".toList none = .ok file ∧
      (∀ (j : Importer) (line : Option Int), j.resolvePath disk file line = .ok file) ∧
      importer.resolvePath disk "..//lib/./util.sh".toList none = .ok file := by
  intro importer disk file
  have both : importer.candidates disk "..//lib/./util".toList =
      ["/w/lib/util".toList, file] := by decide
  have final : (Path.components "..//lib/./util".toList).getLast? = some "util".toList := by decide
  have name : Path.IsName "util".toList := ⟨by decide, by decide, by decide⟩
  have absent : disk.isFile "/w/lib/util".toList = false := by decide
  have there : disk.isFile file = true := by decide
  have rooted : Path.isAbsolute disk.cwd = true := by decide
  have flat : '/' ∉ importer.settings.extension.toList := by decide
  obtain ⟨itself, written⟩ :=
    importer.resolvePath_stable rooted flat "..//lib/./util".toList none
  obtain ⟨short, long⟩ := written _ _ _ both final name absent there
  have whole : "..//lib/./util".toList ++ importer.settings.extension.toList =
      "..//lib/./util.sh".toList := by decide
  rw [whole] at long
  exact ⟨short, (itself file short).2, long⟩

end Importer

end ShellInliner
