import EpsilonAutomata.Files
import Mathlib.Tactic.SplitIfs

/-! Texts in a tree of files. What is written is read back along the same path, and what is read can be
overwritten. A write changes one place only, but the directories on the way to it are looked up again, and
a path may wind through `..`; none of them is the place that the write makes a file. -/

namespace EpsilonAutomata.Files

theorem fromUTF8?_eq_some_iff (bytes : ByteArray) (text : String) :
    String.fromUTF8? bytes = some text ↔ bytes = text.toUTF8 := by
  unfold String.fromUTF8?
  constructor
  · intro h
    split at h
    · cases h
      rfl
    · cases h
  · rintro rfl
    rw [String.toUTF8_eq_toByteArray, dif_pos text.isValidUTF8]
    rfl

theorem decode_eq_ok_iff (bytes : ByteArray) (text : String) : decode bytes = .ok text ↔ bytes = text.toUTF8 := by
  rw [← fromUTF8?_eq_some_iff, decode]
  cases String.fromUTF8? bytes <;> simp

def put (files : Files) (place : List String) (text : String) : Files :=
  ⟨files.entries.insert place (.file text.toUTF8)⟩

variable {files : Files} {directory next place : List String} {name text : String}

theorem find?_put (files : Files) (place : List String) (text : String) (other : List String) :
    (files.put place text).entries.find? other =
      if other = place then some (.file text.toUTF8) else files.entries.find? other :=
  files.entries.find?_alter place other _

theorem isFile_put (files : Files) (place : List String) (text : String) (other : List String) :
    (files.put place text).isFile other = (decide (other = place) || files.isFile other) := by
  rw [isFile, isFile, find?_put]
  by_cases h : other = place <;> simp [h]

theorem isFile_eq_true_iff :
    files.isFile place = true ↔ ∃ bytes, files.entries.find? place = some (.file bytes) := by
  unfold isFile
  split
  · next bytes h => simp [h]
  · next h => simpa using h

/-! Where a name leads. -/

theorem lookUp_eq_ok_iff : files.lookUp directory name = .ok next ↔
    (name = "." ∧ directory = next) ∨ (name = ".." ∧ parent directory = next) ∨
      (name ≠ "." ∧ name ≠ ".." ∧ name.utf8ByteSize ≤ nameLimit ∧
        (files.entries.find? (directory ++ [name])).isSome ∧ directory ++ [name] = next) := by
  unfold lookUp
  split_ifs with hdot hdots hlong hsome
  · simp [hdot]
  · simp [hdots]
  · simp [hdot, hdots, Nat.not_le.2 hlong]
  · simp [hdot, hdots, Nat.not_lt.1 hlong, hsome]
  · simp [hdot, hdots, hsome]

theorem lookUp_eq_notFound_iff : files.lookUp directory name = .error .notFound ↔
    name ≠ "." ∧ name ≠ ".." ∧ name.utf8ByteSize ≤ nameLimit ∧
      files.entries.find? (directory ++ [name]) = none := by
  unfold lookUp
  split_ifs with hdot hdots hlong hsome
  · simp [hdot]
  · simp [hdots]
  · simp [Nat.not_le.2 hlong]
  · simp [Option.isSome_iff_ne_none.1 hsome]
  · simpa [hdot, hdots, Nat.not_lt.1 hlong] using hsome

theorem lookUp_put (h : files.lookUp directory name = .ok next) (place : List String) (text : String) :
    (files.put place text).lookUp directory name = .ok next := by
  rw [lookUp_eq_ok_iff] at h ⊢
  rcases h with h | h | ⟨hdot, hdots, hsize, hsome, hnext⟩
  · exact .inl h
  · exact .inr (.inl h)
  · refine .inr (.inr ⟨hdot, hdots, hsize, ?_, hnext⟩)
    rw [find?_put]
    split
    · rfl
    · exact hsome

/-- The place that a write to a name in a directory fills: a file, or one that is made there. -/
inductive Fills (files : Files) (directory : List String) (name : String) : List String → Prop
  | file {place : List String} : files.lookUp directory name = .ok place → files.isFile place = true →
      Fills files directory name place
  | fresh : files.lookUp directory name = .error .notFound → Fills files directory name (directory ++ [name])

theorem Fills.lookUp_put (h : files.Fills directory name place) (text : String) :
    (files.put place text).lookUp directory name = .ok place := by
  cases h with
  | file hplace => exact Files.lookUp_put hplace place text
  | fresh hnew =>
    obtain ⟨hdot, hdots, hsize, _⟩ := lookUp_eq_notFound_iff.1 hnew
    refine lookUp_eq_ok_iff.2 (.inr (.inr ⟨hdot, hdots, hsize, ?_, rfl⟩))
    rw [find?_put, if_pos rfl]
    rfl

/-! Where a path leads. -/

/-- Everything on the way down to a place is there, the directories around the root apart. -/
def Entered (files : Files) (place : List String) : Prop :=
  ∀ above name, above ++ [name] <+: place → name ≠ ".." → (files.entries.find? (above ++ [name])).isSome

theorem entered_root : files.Entered [] := by
  intro above name h
  simp at h

theorem Entered.parent (h : files.Entered directory) : files.Entered (parent directory) := by
  intro above name hbelow hname
  unfold Files.parent at hbelow
  split at hbelow
  -- outside the tree the way up adds a name, everywhere else it takes one off
  · rcases List.prefix_concat_iff.1 hbelow with heq | hbelow
    · exact absurd (List.append_inj' heq rfl).2 (by simpa using hname)
    · exact h above name hbelow hname
  · exact h above name (hbelow.trans directory.dropLast_prefix) hname

theorem Entered.lookUp (h : files.Entered directory) (hnext : files.lookUp directory name = .ok next) :
    files.Entered next := by
  rcases lookUp_eq_ok_iff.1 hnext with ⟨_, rfl⟩ | ⟨_, rfl⟩ | ⟨_, _, _, hsome, rfl⟩
  · exact h
  · exact h.parent
  · intro above other hbelow hother
    rcases List.prefix_concat_iff.1 hbelow with heq | hbelow
    · rw [heq]
      exact hsome
    · exact h above other hbelow hother

theorem walk_cons (files : Files) (directory : List String) (name : String) (names : List String) :
    files.walk directory (name :: names) = .ok place ↔
      files.isFile directory = false ∧
        ∃ next, files.lookUp directory name = .ok next ∧ files.walk next names = .ok place := by
  rw [walk]
  cases files.isFile directory <;> cases files.lookUp directory name <;> simp

theorem walk_concat (files : Files) (directory names : List String) (name : String) :
    files.walk directory (names ++ [name]) = .ok place ↔
      ∃ last, files.walk directory names = .ok last ∧ files.isFile last = false ∧
        files.lookUp last name = .ok place := by
  induction names generalizing directory with
  | nil =>
    rw [List.nil_append, walk_cons]
    simp [walk]
  | cons first names ih =>
    simp only [List.cons_append, walk_cons, ih]
    constructor
    · rintro ⟨hdirectory, next, hnext, last, hwalk, hlast⟩
      exact ⟨last, ⟨hdirectory, next, hnext, hwalk⟩, hlast⟩
    · rintro ⟨last, ⟨hdirectory, next, hnext, hwalk⟩, hlast⟩
      exact ⟨hdirectory, next, hnext, last, hwalk, hlast⟩

theorem Entered.walk {names : List String} (h : files.Entered directory)
    (hplace : files.walk directory names = .ok place) : files.Entered place := by
  induction names generalizing directory with
  | nil =>
    cases hplace
    exact h
  | cons name names ih =>
    obtain ⟨_, next, hnext, hwalk⟩ := (walk_cons files directory name names).1 hplace
    exact ih (h.lookUp hnext) hwalk

theorem Fills.isFile_put {entered : List String} (hplace : files.Fills directory name place)
    (h : files.Entered entered) (text : String) :
    (files.put place text).isFile entered = files.isFile entered := by
  rw [Files.isFile_put]
  by_cases heq : entered = place
  · subst heq
    cases hplace with
    | file _ hfile => simp [hfile]
    | fresh hnew =>
      -- the new place would have to be there before it was made
      obtain ⟨_, hdots, _, hnone⟩ := lookUp_eq_notFound_iff.1 hnew
      have hsome := h directory name List.prefix_rfl hdots
      rw [hnone] at hsome
      cases hsome
  · simp [heq]

theorem Fills.walk_put {entered last names : List String} (hplace : files.Fills directory name place)
    (h : files.Entered entered) (hwalk : files.walk entered names = .ok last) (text : String) :
    (files.put place text).walk entered names = .ok last := by
  induction names generalizing entered with
  | nil => exact hwalk
  | cons first names ih =>
    obtain ⟨hentered, next, hnext, hwalk⟩ := (walk_cons files entered first names).1 hwalk
    rw [walk_cons, hplace.isFile_put h]
    exact ⟨hentered, next, Files.lookUp_put hnext place text, ih (h.lookUp hnext) hwalk⟩

/-! Reading and writing. -/

theorem resolve_eq_ok_iff {path : String} : files.resolve path = .ok place ↔
    ∃ parsed, Path.read path = .ok parsed ∧ files.walk [] parsed.names = .ok place ∧
      ¬ (parsed.slash ∧ files.isFile place) := by
  unfold resolve
  cases Path.read path with
  | error refusal => simp
  | ok parsed =>
    simp only [Except.ok.injEq, exists_eq_left']
    cases files.walk [] parsed.names with
    | error refusal => simp
    | ok last =>
      simp only [Except.ok.injEq]
      split_ifs with hslash
      · simp only [false_iff]
        rintro ⟨rfl, hfree⟩
        exact hfree hslash
      · simp only [Except.ok.injEq, iff_self_and]
        rintro rfl
        exact hslash

theorem read_eq_ok_iff {path : String} : files.read path = .ok text ↔
    ∃ place, files.resolve path = .ok place ∧ files.entries.find? place = some (.file text.toUTF8) := by
  unfold read readBytes
  cases files.resolve path with
  | error refusal => simp
  | ok place =>
    simp only [Except.ok.injEq, exists_eq_left']
    cases files.entries.find? place with
    | none => simp
    | some entry => cases entry <;> simp [decode_eq_ok_iff]

theorem fill_eq_ok_iff {files' : Files} :
    (match files.lookUp directory name with
      | .error .notFound => .ok (files.put (directory ++ [name]) text)
      | .error refusal => .error refusal
      | .ok place => if files.isFile place then .ok (files.put place text) else .error .isDirectory) =
        (.ok files' : Except FileRefusal Files) ↔
      ∃ place, files.Fills directory name place ∧ files.put place text = files' := by
  constructor
  · intro h
    split at h
    · next hnew =>
      cases h
      exact ⟨_, .fresh hnew, rfl⟩
    · cases h
    · next place hplace =>
      split at h
      · next hfile =>
        cases h
        exact ⟨place, .file hplace hfile, rfl⟩
      · cases h
  · rintro ⟨place, hplace, rfl⟩
    cases hplace with
    | file hplace hfile => simp only [hplace, if_pos hfile]
    | fresh hnew => simp only [hnew]

theorem write_eq_ok_iff {files' : Files} {path : String} : files.write path text = .ok files' ↔
    ∃ parsed, Path.read path = .ok parsed ∧ parsed.slash = false ∧
      ∃ names name, parsed.names = names ++ [name] ∧
        ∃ directory, files.walk [] names = .ok directory ∧ files.isFile directory = false ∧
          ∃ place, files.Fills directory name place ∧ files.put place text = files' := by
  unfold write
  cases Path.read path with
  | error refusal => simp
  | ok parsed =>
    obtain ⟨names, slash⟩ := parsed
    simp only [Except.ok.injEq, exists_eq_left']
    rcases List.eq_nil_or_concat names with rfl | ⟨names, name, rfl⟩
    · simp
    · simp only [List.concat_eq_append, List.reverse_append, List.reverse_singleton, List.singleton_append,
        List.reverse_reverse, List.append_singleton_inj, and_assoc, exists_and_left, exists_eq_left']
      cases files.walk [] names with
      | error refusal => simp
      | ok directory =>
        simp only [Except.ok.injEq, exists_eq_left', ← fill_eq_ok_iff]
        split_ifs with hfile hslash
        · simp [hfile]
        · simp [hslash]
        · rw [Bool.not_eq_true] at hfile hslash
          simp only [hfile, hslash, true_and]
          rfl

/-- What is written is there, on the path that it was written along. -/
theorem read_of_write {files' : Files} {path : String} (h : files.write path text = .ok files') :
    files'.read path = .ok text := by
  obtain ⟨parsed, hpath, hslash, names, name, hnames, directory, hwalk, hdirectory, place, hplace, rfl⟩ :=
    write_eq_ok_iff.1 h
  have hroot : files.Entered [] := entered_root
  have hlast : (files.put place text).walk [] parsed.names = .ok place := by
    rw [hnames, walk_concat]
    refine ⟨directory, hplace.walk_put hroot hwalk text, ?_, hplace.lookUp_put text⟩
    rw [hplace.isFile_put (hroot.walk hwalk)]
    exact hdirectory
  have hresolve : (files.put place text).resolve path = .ok place :=
    resolve_eq_ok_iff.2 ⟨parsed, hpath, hlast, by simp [hslash]⟩
  refine read_eq_ok_iff.2 ⟨place, hresolve, ?_⟩
  rw [find?_put, if_pos rfl]

/-- A file that is read can be overwritten, the root being no file. -/
theorem exists_write_of_read {path : String} (hroot : files.isFile [] = false) (h : files.read path = .ok text)
    (other : String) : ∃ files', files.write path other = .ok files' := by
  obtain ⟨place, hresolve, hfind⟩ := read_eq_ok_iff.1 h
  obtain ⟨parsed, hpath, hwalk, hslash⟩ := resolve_eq_ok_iff.1 hresolve
  have hfile : files.isFile place = true := isFile_eq_true_iff.2 ⟨_, hfind⟩
  have hslash : parsed.slash = false := by simpa [hfile] using hslash
  rcases List.eq_nil_or_concat parsed.names with hnames | ⟨names, name, hnames⟩
  · rw [hnames] at hwalk
    cases hwalk
    rw [hroot] at hfile
    cases hfile
  · rw [List.concat_eq_append] at hnames
    rw [hnames, walk_concat] at hwalk
    obtain ⟨directory, hwalk, hdirectory, hlook⟩ := hwalk
    exact ⟨_, write_eq_ok_iff.2 ⟨parsed, hpath, hslash, names, name, hnames, directory, hwalk, hdirectory,
      place, .file hlook hfile, rfl⟩⟩

end EpsilonAutomata.Files
