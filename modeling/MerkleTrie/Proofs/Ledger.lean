-- SUMMARY: Finite maps from keys to values in which no key is a prefix of another, and insertion into them.
import MerkleTrie.Flavour
import MerkleTrie.Proofs.Path.Prefix

/-! # Ledgers

A ledger is what a trie stands for: a list of keys with their values. It says of
a new key whether it may be added, with no regard to any tree. Its order carries
no meaning. -/

namespace MerkleTrie

variable {f : Flavour}

/-- A key, as the bits of its descent, with the value stored at it. -/
abbrev Entry (f : Flavour) := List Bool × f.Value

/-- The entry with bits put in front of its key. -/
def Entry.under (segment : List Bool) (entry : Entry f) : Entry f :=
  (segment ++ entry.1, entry.2)

@[simp] theorem Entry.under_key (segment : List Bool) (entry : Entry f) :
    (entry.under segment).1 = segment ++ entry.1 := rfl

theorem Entry.under_append (as bs : List Bool) (entry : Entry f) :
    entry.under (as ++ bs) = (entry.under bs).under as := by
  simp [Entry.under]

/-- The leaf of a trie that an entry stands for. -/
def Entry.leaf (entry : Entry f) : Path × f.Value := (.ofBits entry.1, entry.2)

/-- Keys with their values, in no particular order. -/
abbrev Ledger (f : Flavour) := List (Entry f)

namespace Ledger

/-- Neither of any two keys is a prefix of the other. -/
def PrefixFree (m : Ledger f) : Prop := m.Pairwise fun e e' => Apart e.1 e'.1

/-- Add a key with its value. It is refused if it has no bits, if it is a key already or lies on
the way to one, and if a key lies on the way to it. -/
def insert (m : Ledger f) (path : Path) (value : f.Value) : Except TrieError (Ledger f) :=
  if path.bits.isEmpty then .error (.invalidPath path)
  else if m.any fun e => path.bits.isPrefixOf e.1 then .error (.branchExists path)
  else if m.any fun e => e.1.isPrefixOf path.bits then .error (.leafOutOfBounds path)
  else .ok ((path.bits, value) :: m)

/-! ## Outcomes of an insertion -/

theorem any_isPrefixOf_left {m : Ledger f} {bits : List Bool} :
    (m.any fun e => bits.isPrefixOf e.1) = true ↔ ∃ e ∈ m, bits <+: e.1 := by
  simp only [List.any_eq_true, List.isPrefixOf_iff_prefix]

theorem any_isPrefixOf_right {m : Ledger f} {bits : List Bool} :
    (m.any fun e => e.1.isPrefixOf bits) = true ↔ ∃ e ∈ m, e.1 <+: bits := by
  simp only [List.any_eq_true, List.isPrefixOf_iff_prefix]

theorem insert_of_empty {path : Path} (h : path.bits = []) (m : Ledger f) (value : f.Value) :
    m.insert path value = .error (.invalidPath path) := by
  simp [insert, h]

theorem insert_of_prefix_key {m : Ledger f} {path : Path} (hne : path.bits ≠ [])
    (h : ∃ e ∈ m, path.bits <+: e.1) (value : f.Value) :
    m.insert path value = .error (.branchExists path) := by
  unfold insert
  rw [if_neg (by simpa using hne), if_pos (any_isPrefixOf_left.2 h)]

theorem insert_of_beyond {m : Ledger f} {path : Path} (hne : path.bits ≠ [])
    (hn : ∀ e ∈ m, ¬ path.bits <+: e.1) (h : ∃ e ∈ m, e.1 <+: path.bits) (value : f.Value) :
    m.insert path value = .error (.leafOutOfBounds path) := by
  have hn' : ¬ ∃ e ∈ m, path.bits <+: e.1 := fun ⟨e, he, hp⟩ => hn e he hp
  unfold insert
  rw [if_neg (by simpa using hne), if_neg (mt any_isPrefixOf_left.1 hn'),
    if_pos (any_isPrefixOf_right.2 h)]

theorem insert_of_apart {m : Ledger f} {path : Path} (hne : path.bits ≠ [])
    (h : ∀ e ∈ m, Apart path.bits e.1) (value : f.Value) :
    m.insert path value = .ok ((path.bits, value) :: m) := by
  have hl : ¬ ∃ e ∈ m, path.bits <+: e.1 := fun ⟨e, he, hp⟩ => (h e he).1 hp
  have hr : ¬ ∃ e ∈ m, e.1 <+: path.bits := fun ⟨e, he, hp⟩ => (h e he).2 hp
  unfold insert
  rw [if_neg (by simpa using hne), if_neg (mt any_isPrefixOf_left.1 hl),
    if_neg (mt any_isPrefixOf_right.1 hr)]

/-- What an accepted insertion makes of a ledger. -/
theorem eq_cons_of_insert {m m' : Ledger f} {path : Path} {value : f.Value}
    (h : m.insert path value = .ok m') : path.bits ≠ [] ∧ m' = (path.bits, value) :: m := by
  unfold insert at h
  split at h
  · cases h
  · rename_i hempty
    split at h
    · cases h
    · split at h
      · cases h
      · cases h
        exact ⟨by simpa using hempty, rfl⟩

/-! ## Prefix-free ledgers -/

namespace PrefixFree

theorem map_under {m : Ledger f} (h : m.PrefixFree) (segment : List Bool) :
    PrefixFree (m.map (Entry.under segment)) := by
  simpa only [PrefixFree, List.pairwise_map, Entry.under_key, Apart.append_left_iff] using h

theorem append {m m' : Ledger f} (h : m.PrefixFree) (h' : m'.PrefixFree)
    (hc : ∀ e ∈ m, ∀ e' ∈ m', Apart e.1 e'.1) : PrefixFree (m ++ m') :=
  List.pairwise_append.2 ⟨h, h', hc⟩

theorem cons {m : Ledger f} (h : m.PrefixFree) {e : Entry f} (hc : ∀ e' ∈ m, Apart e.1 e'.1) :
    PrefixFree (e :: m) :=
  List.pairwise_cons.2 ⟨hc, h⟩

/-- The leaves of a prefix-free ledger are distinct. -/
theorem nodup_leaves {m : Ledger f} (h : m.PrefixFree) : (m.map Entry.leaf).Nodup := by
  refine List.pairwise_map.2 (List.Pairwise.imp ?_ h)
  intro e e' hapart heq
  exact hapart.ne (Path.ofBits_inj.1 (congrArg Prod.fst heq))

end PrefixFree

end Ledger

end MerkleTrie
