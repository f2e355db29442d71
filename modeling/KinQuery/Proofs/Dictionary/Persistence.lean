import KinQuery.Proofs.Dictionary.Lookup
import KinQuery.Proofs.Json.StringMap

/-! What a dictionary is like once it was saved and loaded again.

A dictionary adds its entries in the order in which they come, and adds them again in the
order of their keys when it is loaded. The entries are the same then. The name of a chain
that several entries stand for is the same only if the last of them to come and the last of
them by key give it one name. -/
namespace KinQuery.Dictionary

variable {d e : Dictionary} {key name : String} {file : BackingFile}

/-! ### Entries as they are kept -/

/-- An entry as a dictionary keeps it. -/
structure IsNormal (entry : String × String) : Prop where
  isEntry : IsEntry entry.1 entry.2
  key : normalKey entry.1 = entry.1
  name : Text.trimmed entry.2 = entry.2

theorem isNormal_normalEntry (h : IsEntry key name) : IsNormal (normalEntry key name) where
  isEntry := by
    obtain ⟨terms, nonempty, quotes, nameQuotes⟩ := h
    exact ⟨by simpa [normalEntry] using terms, by simpa [normalEntry, Text.trimmed_trimmed],
      by simpa [normalEntry] using quotes, by simpa [normalEntry, Text.trimmed_trimmed]⟩
  key := by simp [normalEntry]
  name := by simp [normalEntry, Text.trimmed_trimmed]

/-- Entries in the order of their keys; of two with one key the later counts. -/
def sorted (entries : List (String × String)) : List (String × String) :=
  entries.foldl (fun sorted entry => insertSorted entry.1 entry.2 sorted) []

theorem sorted_append (entries : List (String × String)) (entry : String × String) :
    sorted (entries ++ [entry]) = insertSorted entry.1 entry.2 (sorted entries) := by
  simp [sorted]

theorem isSorted_sorted (entries : List (String × String)) : IsSorted (sorted entries) := by
  induction entries using List.reverseRecOn with
  | nil => exact .nil
  | append_singleton entries entry ih =>
    rw [sorted_append]
    exact insertSorted_isSorted ih

theorem mem_of_mem_sorted {entries : List (String × String)} {entry : String × String}
    (h : entry ∈ sorted entries) : entry ∈ entries := by
  induction entries using List.reverseRecOn with
  | nil => simp [sorted] at h
  | append_singleton entries last ih =>
    rw [sorted_append] at h
    rcases mem_of_mem_insertSorted h with rfl | h
    · simp
    · exact List.mem_append_left _ (ih h)

theorem sorted_of_isSorted {entries : List (String × String)} (h : IsSorted entries) :
    sorted entries = entries := by
  induction entries using List.reverseRecOn with
  | nil => rfl
  | append_singleton entries entry ih =>
    obtain ⟨before, -, all⟩ := List.pairwise_append.1 h
    rw [sorted_append, ih before]
    exact insertSorted_append fun other hother => all other hother entry (by simp)

theorem lookup_sorted_eq_none {entries : List (String × String)} :
    (sorted entries).lookup key = none ↔ entries.lookup key = none := by
  induction entries using List.reverseRecOn with
  | nil => rfl
  | append_singleton entries entry ih =>
    rw [sorted_append, List.lookup_append, Option.or_eq_none_iff, lookup_cons_eq]
    by_cases same : key = entry.1
    · subst same
      simp [lookup_insertSorted_self]
    · simp [lookup_insertSorted_ne same, same, ih]

/-! ### Adding entries one by one -/

/-- Additions one after the other, up to the first that fails. -/
def putAll (d : Dictionary) : List (String × String) → Except Failure Dictionary
  | [] => .ok d
  | (key, name) :: puts =>
    match d.put key name with
    | (.ok _, d) => d.putAll puts
    | (.error failure, _) => .error failure

/-- Adds an entry to a list, unless there is one with its key. -/
def addition (added : List (String × String)) (put : String × String) : List (String × String) :=
  if (added.lookup (normalKey put.1)).isSome then added else added ++ [normalEntry put.1 put.2]

/-- The entries that additions to an empty dictionary add, in the order in which they come:
the first for each key. -/
def additions (puts : List (String × String)) : List (String × String) :=
  puts.foldl addition []

/-- A dictionary that was empty at first, with its file, after some entries were added. -/
structure Holds (file : BackingFile) (added : List (String × String)) (d : Dictionary) :
    Prop where
  normal : ∀ entry ∈ added, IsNormal entry
  entries : d.entries = sorted added
  chains : d.chains = added.reverse.flatMap chainsOf
  file : d.file = some { file with text := if added = [] then none else some d.record }

/-- A dictionary that holds some entries and is saved with one more holds that one too. -/
theorem Holds.save {added : List (String × String)} (h : Holds file added d)
    (isEntry : IsEntry key name) (saved : (d.withEntry key name).save = .ok e) :
    Holds file (added ++ [normalEntry key name]) e := by
  have written : e = { d.withEntry key name with
      file := some { file with text := some (d.withEntry key name).record } } := by
    unfold Dictionary.save at saved
    have hfile : (d.withEntry key name).file = _ := h.file
    rw [hfile] at saved
    dsimp only at saved
    split at saved
    · cases saved
    · cases saved
      rfl
  subst written
  refine ⟨fun entry hentry => ?_, ?_, ?_, ?_⟩
  · rcases List.mem_append.1 hentry with hentry | hentry
    · exact h.normal entry hentry
    · rw [List.mem_singleton.1 hentry]
      exact isNormal_normalEntry isEntry
  · rw [sorted_append, ← h.entries]
    rfl
  · rw [List.reverse_append, List.reverse_singleton, List.singleton_append, List.flatMap_cons,
      ← h.chains]
    exact withEntry_chains d key name
  · simp [record]

theorem Holds.put {added : List (String × String)} (h : Holds file added d) {b : Bool}
    (put : d.put key name = (.ok b, e)) : Holds file (addition added (key, name)) e := by
  have present : (d.entries.lookup (normalKey key)).isSome =
      (added.lookup (normalKey key)).isSome := by
    rw [h.entries, Bool.eq_iff_iff, Option.isSome_iff_ne_none, Option.isSome_iff_ne_none]
    exact not_congr lookup_sorted_eq_none
  have outcome := put_outcome d key name
  rw [put] at outcome
  unfold addition
  cases outcome with
  | present there =>
    rw [if_pos (present ▸ there)]
    exact h
  | saved e fresh isEntry saved =>
    rw [if_neg (by simp [← present, fresh])]
    exact h.save isEntry saved

theorem Holds.putAll {added puts : List (String × String)} (h : Holds file added d)
    (hputs : d.putAll puts = .ok e) : Holds file (puts.foldl addition added) e := by
  induction puts generalizing d added with
  | nil =>
    cases hputs
    exact h
  | cons put puts ih =>
    obtain ⟨key, name⟩ := put
    unfold Dictionary.putAll at hputs
    split at hputs
    · rename_i b next hput
      exact ih (h.put hput) hputs
    · cases hputs

/-! ### Saving and loading -/

theorem record_eq (d : Dictionary) : d.record = Json.indented "" (Json.ofPairs d.entries) := rfl

/-- What is written of a dictionary is read back as its entries. -/
theorem readEntries_record (h : IsSorted d.entries) : readEntries d.record = some d.entries := by
  have read (pairs entries : List (String × String)) :
      (pairs.map fun pair => (pair.1, Json.text pair.2)).foldlM
        (fun entries member =>
          member.2.text?.map fun name => insertSorted member.1 name entries)
        entries = some (pairs.foldl (fun sorted entry => insertSorted entry.1 entry.2 sorted)
          entries) := by
    induction pairs generalizing entries with
    | nil => rfl
    | cons pair pairs ih => exact ih _
  rw [readEntries, record_eq, Json.parse?_indented]
  exact (read _ _).trans (congrArg some (sorted_of_isSorted h))

theorem insertAll_of_isNormal {entries : List (String × String)}
    (normal : ∀ entry ∈ entries, IsNormal entry) (d : Dictionary) :
    ∃ e, d.insertAll entries = .ok e ∧ e.file = d.file ∧
      e.entries = entries.foldl (fun sorted entry => insertSorted entry.1 entry.2 sorted) d.entries ∧
      e.chains = entries.reverse.flatMap chainsOf ++ d.chains := by
  induction entries generalizing d with
  | nil => exact ⟨d, rfl, rfl, rfl, rfl⟩
  | cons entry entries ih =>
    obtain ⟨first, rest⟩ := List.forall_mem_cons.1 normal
    obtain ⟨e, inserted, file, hentries, hchains⟩ := ih rest (d.withEntry entry.1 entry.2)
    refine ⟨e, ?_, file, ?_, ?_⟩
    · rw [insertAll, List.foldlM_cons, insert_of_isEntry first.isEntry]
      exact inserted
    · rw [hentries, List.foldl_cons, withEntry, first.key, first.name]
    · rw [hchains, withEntry_chains, normalEntry, first.key, first.name]
      simp

/-- A dictionary that was saved is loaded with the same entries, added in the order of their
keys. -/
theorem Holds.load {added : List (String × String)} (h : Holds file added d) :
    ∃ saved e, d.file = some saved ∧ load saved = .ok e ∧ e.entries = d.entries ∧
      e.chains = d.entries.reverse.flatMap chainsOf := by
  by_cases empty : added = []
  · refine ⟨_, { file := d.file }, h.file, ?_, ?_, ?_⟩
    · rw [h.file, if_pos empty, Dictionary.load]
    · rw [h.entries, empty]
      rfl
    · rw [h.entries, empty]
      rfl
  · have isSorted : IsSorted d.entries := h.entries ▸ isSorted_sorted added
    have normal : ∀ entry ∈ d.entries, IsNormal entry := fun entry hentry =>
      h.normal entry (mem_of_mem_sorted (h.entries ▸ hentry))
    obtain ⟨e, inserted, -, hentries, hchains⟩ := insertAll_of_isNormal normal { file := d.file }
    refine ⟨_, e, h.file, ?_, ?_, ?_⟩
    · rw [if_neg empty, Dictionary.load]
      simp only [readEntries_record isSorted]
      rw [← inserted, h.file, if_neg empty]
    · rw [hentries]
      exact sorted_of_isSorted isSorted
    · simpa using hchains

/-- A file that is not there holds no entries. -/
theorem holds_of_missing (missing : file.text = none) (loaded : load file = .ok d) :
    Holds file [] d := by
  unfold Dictionary.load at loaded
  rw [missing] at loaded
  cases loaded
  refine ⟨by simp, rfl, rfl, ?_⟩
  rw [if_pos rfl, ← missing]

theorem Holds.get? {added : List (String × String)} (h : Holds file added d)
    (chain : List String) : d.get? chain = lastName added chain := by
  rw [Dictionary.get?, h.chains, lookup_flatMap_chainsOf]

/-- For every chain, the last entry to come that stands for it and the last one by key name it
alike. -/
def KeepsNames (entries : List (String × String)) : Prop :=
  ∀ chain, lastName entries chain = lastName (sorted entries) chain

/-- After additions to a dictionary whose file was not there, the file is read back with the
same entries. Every chain has the name that it had exactly if the order of the keys keeps the
names; then every chain is shortened as it was, too. -/
theorem load_saved_iff (missing : file.text = none) {start : Dictionary}
    (opened : load file = .ok start) {puts : List (String × String)}
    (added : start.putAll puts = .ok d) :
    ∃ saved e, d.file = some saved ∧ load saved = .ok e ∧ e.entries = d.entries ∧
      ((∀ chain, e.get? chain = d.get? chain) ↔ KeepsNames (additions puts)) ∧
      (KeepsNames (additions puts) → ∀ chain, e.shorten chain = d.shorten chain) := by
  have holds : Holds file (additions puts) d := (holds_of_missing missing opened).putAll added
  obtain ⟨saved, e, hfile, loaded, entries, chains⟩ := holds.load
  have before (chain : List String) : d.get? chain = lastName (additions puts) chain :=
    holds.get? chain
  have after (chain : List String) : e.get? chain = lastName (sorted (additions puts)) chain := by
    rw [get?, chains, lookup_flatMap_chainsOf, holds.entries]
  have names : (∀ chain, e.get? chain = d.get? chain) ↔ KeepsNames (additions puts) := by
    refine forall_congr' fun chain => ?_
    rw [before, after]
    exact eq_comm
  exact ⟨saved, e, hfile, loaded, entries, names, fun keeps => shorten_congr (names.2 keeps)⟩

/-- Two entries that both stand for a chain, added in the order of their keys. -/
theorem load_saved_iff_overlapping :
    ∃ d saved e, putAll { file := some {} } [("mother,son", "brother"), ("parent, son", "kin")] =
        .ok d ∧
      d.file = some saved ∧ load saved = .ok e ∧ e.entries = d.entries ∧
      (∀ chain, e.get? chain = d.get? chain) ∧ (∀ chain, e.shorten chain = d.shorten chain) ∧
      d.entries = [("mother,son", "brother"), ("parent,son", "kin")] ∧
      e.get? ["mother", "son"] = some "kin" ∧ e.get? ["father", "son"] = some "kin" := by
  have valid : (putAll { file := some {} }
      [("mother,son", "brother"), ("parent, son", "kin")]).isOk = true := by decide +kernel
  cases added : putAll { file := some {} } [("mother,son", "brother"), ("parent, son", "kin")] with
  | error failure =>
    rw [added] at valid
    cases valid
  | ok d =>
    have opened : load {} = .ok { file := some {} } := rfl
    obtain ⟨saved, e, hfile, loaded, entries, names, shortened⟩ := load_saved_iff rfl opened added
    have inOrder : sorted (additions [("mother,son", "brother"), ("parent, son", "kin")]) =
        additions [("mother,son", "brother"), ("parent, son", "kin")] := by decide +kernel
    have keeps : KeepsNames (additions [("mother,son", "brother"), ("parent, son", "kin")]) :=
      fun _ => by rw [inOrder]
    have holds := (holds_of_missing rfl opened).putAll added
    refine ⟨d, saved, e, rfl, hfile, loaded, entries, names.2 keeps, shortened keeps, ?_, ?_, ?_⟩
    · rw [holds.entries]
      decide +kernel
    · rw [names.2 keeps, holds.get?]
      decide +kernel
    · rw [names.2 keeps, holds.get?]
      decide +kernel

/-- A chain that two entries stand for is named by the later one, but when the dictionary is
loaded again, by the one with the greater key. -/
theorem load_saved_renames :
    ∃ d saved e, putAll { file := some {} } [("parent,son", "b"), ("mother,son", "a")] = .ok d ∧
      d.file = some saved ∧ load saved = .ok e ∧
      d.get? ["mother", "son"] = some "a" ∧ e.get? ["mother", "son"] = some "b" := by
  have valid : (putAll { file := some {} }
      [("parent,son", "b"), ("mother,son", "a")]).isOk = true := by decide +kernel
  cases added : putAll { file := some {} } [("parent,son", "b"), ("mother,son", "a")] with
  | error failure =>
    rw [added] at valid
    cases valid
  | ok d =>
    have opened : load {} = .ok { file := some {} } := rfl
    have holds := (holds_of_missing rfl opened).putAll added
    obtain ⟨saved, e, hfile, loaded, entries, chains⟩ := holds.load
    refine ⟨d, saved, e, rfl, hfile, loaded, ?_, ?_⟩
    · rw [holds.get?]
      decide +kernel
    · rw [get?, chains, lookup_flatMap_chainsOf, holds.entries]
      decide +kernel

end KinQuery.Dictionary
