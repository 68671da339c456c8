import Asm6502.Disk
import Asm6502.Proofs.Paths
import Mathlib.Tactic.SplitIfs

/-!
# What operations do to a disk

- `Disk.Extends`: what is there stays there, a directory as a directory. Every look-up that succeeds
  leads to the same place on the larger disk (`Extends.walk`, `Extends.locate`).
- All paths above one that can be looked up lead to directories (`isDirectory_of_above`).
- `Disk.Grows`: nothing but directories comes along. Making directories does no more than that.
- `Disk.Places`: where a path leads that a file can be made at; nothing else is touched in making it
  (`createFile_cases`) and writing to it (`Places.appendFile`).
- `Disk.IsTree`: what holds something is a directory. A disk starts as a tree (`isTree_empty`), and
  making directories and files keeps it one. On a tree, a path to a file ends in the name of the
  file (`IsTree.locate_eq_ok`).
-/

namespace Asm6502

theorem bind_eq_ok {ε α β : Type} {x : Except ε α} {f : α → Except ε β} {b : β} :
    x >>= f = .ok b ↔ ∃ a, x = .ok a ∧ f a = .ok b := by
  cases x <;> simp [bind, Except.bind]

namespace Disk

variable {d d' d₁ d₂ d₃ : Disk} {location other : Location} {node : Node} {path : Path}
  {name : String} {names more : List String}

/-! ## Nodes -/

theorem node?_put (location : Location) (node : Node) (d : Disk) (other : Location) :
    (d.put location node).node? other =
      if other = location then some node else d.node? other := by
  simp only [node?, put]
  induction d.nodes with
  | nil =>
    by_cases h : other = location
    · simp [h]
    · simp [h, List.lookup_cons, beq_false_of_ne h]
  | cons p nodes ih =>
    obtain ⟨key, value⟩ := p
    by_cases hkey : key = location
    · subst hkey
      by_cases h : other = key
      · simpa [h] using ih
      · simpa [h, List.lookup_cons, beq_false_of_ne h] using ih
    · by_cases h : other = key
      · subst h
        simp [hkey]
      · simpa [hkey, List.lookup_cons, beq_false_of_ne h] using ih

theorem node?_put_self : (d.put location node).node? location = some node := by
  rw [node?_put, if_pos rfl]

theorem node?_put_of_ne (h : other ≠ location) :
    (d.put location node).node? other = d.node? other := by
  rw [node?_put, if_neg h]

/-- What was put in place is replaced by what is put in its place later. -/
theorem put_put (location : Location) (node node' : Node) (d : Disk) :
    (d.put location node).put location node' = d.put location node' := by
  simp [put, List.filter_append, List.filter_filter]

/-! ## Larger disks -/

/-- What is there stays there, and directories stay directories. -/
structure Extends (d d' : Disk) : Prop where
  working : d'.working = d.working
  directory : ∀ {location}, d.node? location = some .directory → d'.node? location = some .directory
  present : ∀ {location}, (d.node? location).isSome → (d'.node? location).isSome

/-! ## Look-ups -/

theorem isDirectoryName_eq_false :
    isDirectoryName name = false ↔ name ≠ "" ∧ name ≠ "." ∧ name ≠ ".." := by
  simp [isDirectoryName, and_assoc]

/-- A look-up over one name. -/
def enter (d : Disk) (location : Location) (name : String) : Except OsError Location :=
  if d.node? location = some .directory then
    if name = "" ∨ name = "." then .ok location
    else if name = ".." then .ok location.dropLast
    else if maxName < name.utf8ByteSize then .error .nameTooLong
    else if (d.node? (location ++ [name])).isSome then .ok (location ++ [name])
    else .error .notFound
  else .error .notDirectory

theorem walk_cons (d : Disk) (location : Location) (name : String) (more : List String) :
    d.walk location (name :: more) = d.enter location name >>= (d.walk · more) := by
  unfold enter
  by_cases h : d.node? location = some .directory
  · rw [if_pos h, walk]
    simp only [h]
    split_ifs <;> rfl
  · rw [if_neg h, walk]
    split
    · rename_i hdir
      exact absurd hdir h
    · rfl

theorem walk_append (d : Disk) (location : Location) (names more : List String) :
    d.walk location (names ++ more) = d.walk location names >>= (d.walk · more) := by
  induction names generalizing location with
  | nil => rfl
  | cons name names ih =>
    rw [List.cons_append, walk_cons, walk_cons]
    cases d.enter location name with
    | error reason => rfl
    | ok next => exact ih next

/-- A look-up along `names` and then `more` that succeeds. -/
theorem walk_append_eq_ok : d.walk location (names ++ more) = .ok other ↔
    ∃ between, d.walk location names = .ok between ∧ d.walk between more = .ok other := by
  rw [walk_append, bind_eq_ok]

theorem walk_singleton (d : Disk) (location : Location) (name : String) :
    d.walk location [name] = d.enter location name := by
  rw [walk_cons]
  cases d.enter location name <;> rfl

/-- The three ways over one name: it stands for the place itself, for the place above it, or for
what is there under the name. -/
theorem enter_cases (h : d.enter location name = .ok other) :
    d.node? location = some .directory ∧
      ((name = "" ∨ name = ".") ∧ other = location ∨ name = ".." ∧ other = location.dropLast ∨
        isDirectoryName name = false ∧ name.utf8ByteSize ≤ maxName ∧
          (d.node? (location ++ [name])).isSome ∧ other = location ++ [name]) := by
  unfold enter at h
  split_ifs at h with hdir hidle hup hlong hsome
  · exact ⟨hdir, .inl ⟨hidle, (Except.ok.inj h).symm⟩⟩
  · exact ⟨hdir, .inr (.inl ⟨hup, (Except.ok.inj h).symm⟩)⟩
  · refine ⟨hdir, .inr (.inr ⟨?_, Nat.le_of_not_lt hlong, hsome, (Except.ok.inj h).symm⟩)⟩
    rw [not_or] at hidle
    exact isDirectoryName_eq_false.2 ⟨hidle.1, hidle.2, hup⟩

theorem enter_idle (h : d.node? location = some .directory) (hname : name = "" ∨ name = ".") :
    d.enter location name = .ok location := by
  rw [enter, if_pos h, if_pos hname]

theorem enter_up (h : d.node? location = some .directory) :
    d.enter location ".." = .ok location.dropLast := by
  rw [enter, if_pos h, if_neg (by decide), if_pos rfl]

theorem enter_name (h : d.node? location = some .directory) (hname : isDirectoryName name = false)
    (hsize : name.utf8ByteSize ≤ maxName) (hsome : (d.node? (location ++ [name])).isSome) :
    d.enter location name = .ok (location ++ [name]) := by
  obtain ⟨hempty, hdot, hdots⟩ := isDirectoryName_eq_false.1 hname
  rw [enter, if_pos h, if_neg (not_or.2 ⟨hempty, hdot⟩), if_neg hdots,
    if_neg (Nat.not_lt.2 hsize), if_pos hsome]

/-- A look-up over one name that succeeds leads to the same place on a larger disk. -/
theorem Extends.enter (h : Extends d d') (ho : d.enter location name = .ok other) :
    d'.enter location name = .ok other := by
  obtain ⟨hdir, hcase⟩ := enter_cases ho
  rcases hcase with ⟨hname, rfl⟩ | ⟨rfl, rfl⟩ | ⟨hname, hsize, hsome, rfl⟩
  · exact enter_idle (h.directory hdir) hname
  · exact enter_up (h.directory hdir)
  · exact enter_name (h.directory hdir) hname hsize (h.present hsome)

theorem Extends.walk (h : Extends d d') (ho : d.walk location names = .ok other) :
    d'.walk location names = .ok other := by
  induction names generalizing location with
  | nil => exact ho
  | cons name names ih =>
    rw [walk_cons, bind_eq_ok] at ho ⊢
    obtain ⟨next, hnext, hwalk⟩ := ho
    exact ⟨next, h.enter hnext, ih hwalk⟩

theorem Extends.base (h : Extends d d') (path : Path) : d'.base path = d.base path := by
  rw [Disk.base, Disk.base, h.working]

/-! ## Paths -/

theorem locate_eq_ok : d.locate path = .ok location ↔
    ∃ names, Disk.names path = .ok names ∧ d.walk (d.base path) names = .ok location := by
  rw [locate, bind_eq_ok]

theorem Extends.locate (h : Extends d d') (ho : d.locate path = .ok location) :
    d'.locate path = .ok location := by
  obtain ⟨names, hnames, hwalk⟩ := locate_eq_ok.1 ho
  exact locate_eq_ok.2 ⟨names, hnames, h.base path ▸ h.walk hwalk⟩

/-- The names in a path, if it is not refused; there is at least one. -/
theorem names_eq_ok (h : Disk.names path = .ok names) :
    '\x00' ∉ path.text.toList ∧ path.text ≠ "" ∧ path.text.utf8ByteSize ≤ maxPath ∧
      names = path.pieces.map String.ofList := by
  unfold Disk.names at h
  split_ifs at h with hnul hempty hlong
  exact ⟨by simpa using hnul, hempty, Nat.le_of_not_lt hlong, (Except.ok.inj h).symm⟩

theorem isDirectory_iff : d.isDirectory path = true ↔
    ∃ location, d.locate path = .ok location ∧ d.node? location = some .directory := by
  unfold isDirectory
  cases d.locate path <;> simp

theorem Extends.isDirectory (h : Extends d d') (hd : d.isDirectory path = true) :
    d'.isDirectory path = true := by
  obtain ⟨location, hlocate, hdir⟩ := isDirectory_iff.1 hd
  exact isDirectory_iff.2 ⟨location, h.locate hlocate, h.directory hdir⟩

theorem locateLast_eq_ok (h : d.locateLast path = .ok (location, name)) :
    ∃ names, Disk.names path = .ok names ∧ d.walk (d.base path) names.dropLast = .ok location ∧
      d.node? location = some .directory ∧ name = names.getLastD "" := by
  obtain ⟨names, hnames, h⟩ := bind_eq_ok.1 h
  obtain ⟨next, hwalk, h⟩ := bind_eq_ok.1 h
  split_ifs at h with hdir
  obtain ⟨rfl, rfl⟩ := Prod.mk.inj (Except.ok.inj h)
  exact ⟨names, hnames, hwalk, hdir, rfl⟩

/-- A path whose text is the beginning of another one's is refused for no other reason than that it
is empty. -/
theorem names_of_prefix {p q : Path} {rest : String} (h : Disk.names p = .ok names)
    (htext : p.text = q.text ++ rest) (hq : q.text ≠ "") :
    Disk.names q = .ok (q.pieces.map String.ofList) := by
  obtain ⟨hnul, -, hsize, -⟩ := names_eq_ok h
  rw [htext, String.toList_append, List.mem_append, not_or] at hnul
  rw [htext, String.utf8ByteSize_append] at hsize
  rw [Disk.names, if_neg (by simpa using hnul.1), if_neg hq, if_neg (by omega)]

theorem directory_of_walk (h : d.walk location names = .ok other)
    (hother : d.node? other = some .directory) : d.node? location = some .directory := by
  cases names with
  | nil => exact Except.ok.inj h ▸ hother
  | cons name names =>
    rw [walk_cons, bind_eq_ok] at h
    obtain ⟨next, hnext, -⟩ := h
    exact (enter_cases hnext).1

theorem isDirectory_of_above {p q : Path} (h : d.locateLast p = .ok (location, name))
    (habove : Path.Above q p) : q.text = "" ∨ d.isDirectory q = true := by
  by_cases hempty : q.text = ""
  · exact .inl hempty
  refine .inr ?_
  obtain ⟨names, hnames, hwalk, hdir, -⟩ := locateLast_eq_ok h
  obtain ⟨rest, htext⟩ := habove.text
  have hq := names_of_prefix hnames htext hempty
  obtain ⟨-, -, -, rfl⟩ := names_eq_ok hnames
  obtain ⟨front, more, hpieces, hmore, rfl⟩ := habove
  have hfront : front <+: p.pieces := ⟨more, hpieces.symm⟩
  have hbase : d.base (.ofPieces p.isAbsolute front) = d.base p := by
    rw [base, base, Path.isAbsolute_ofPieces hfront]
  rw [hpieces, List.map_append, List.dropLast_append_of_ne_nil (by simpa using hmore),
    walk_append_eq_ok] at hwalk
  obtain ⟨between, hbetween, hwalk⟩ := hwalk
  have hdir := directory_of_walk hwalk hdir
  refine isDirectory_iff.2 ⟨between, locate_eq_ok.2 ⟨_, hq, ?_⟩, hdir⟩
  rw [hbase]
  by_cases hnil : front = []
  · -- only the root is left, which is looked up in itself
    subst hnil
    obtain rfl := Except.ok.inj hbetween
    cases habs : p.isAbsolute with
    | false => simp [Path.ofPieces, habs] at hempty
    | true =>
      show d.walk _ [""] = _
      rw [walk_singleton]
      exact enter_idle hdir (.inl rfl)
  · rw [Path.pieces_ofPieces hfront hnil]
    exact hbetween

/-! ## Trees -/

/-- What holds something is a directory. -/
def IsTree (d : Disk) : Prop :=
  ∀ location name, (d.node? (location ++ [name])).isSome → d.node? location = some .directory

theorem IsTree.put (h : d.IsTree) (hdir : d.node? location = some .directory)
    (hnode : d.node? (location ++ [name]) = some .directory → node = .directory) :
    (d.put (location ++ [name]) node).IsTree := by
  intro above name' hsome
  have hne : location ≠ location ++ [name] := by simp
  by_cases hsame : above ++ [name'] = location ++ [name]
  · obtain ⟨rfl, -⟩ := List.append_inj' hsame rfl
    rwa [node?_put_of_ne hne]
  · rw [node?_put_of_ne hsame] at hsome
    have habove := h above name' hsome
    rw [node?_put]
    split
    · rename_i heq
      rw [hnode (heq ▸ habove)]
    · exact habove

/-- A disk is a tree if it is one at every node. -/
theorem isTree_of_nodes (h : ∀ p ∈ d.nodes, p.1 ≠ [] → d.node? p.1.dropLast = some .directory) :
    d.IsTree := by
  intro location name hsome
  obtain ⟨node, hnode⟩ := Option.isSome_iff_exists.1 hsome
  obtain ⟨before, after, hnodes, -⟩ := List.lookup_eq_some_iff.1 hnode
  have hmem : (location ++ [name], node) ∈ d.nodes := by simp [hnodes]
  simpa using h _ hmem (by simp)

theorem node?_empty {working : Location} (h : location <+: working) :
    (empty working).node? location = some .directory := by
  have hsome : ((empty working).node? location).isSome := by
    have hmem : (location, .directory) ∈ (empty working).nodes := by
      have := h.length_le
      refine List.mem_map.2 ⟨location.length, List.mem_range.2 (by omega), ?_⟩
      rw [← List.prefix_iff_eq_take.1 h]
    exact List.lookup_isSome_iff.2 ⟨_, hmem, by simp⟩
  obtain ⟨node, hnode⟩ := Option.isSome_iff_exists.1 hsome
  obtain ⟨before, after, hnodes, -⟩ := List.lookup_eq_some_iff.1 hnode
  have hmem : (location, node) ∈ (empty working).nodes := by simp [hnodes]
  obtain ⟨n, -, heq⟩ := List.mem_map.1 hmem
  rw [hnode, ← (Prod.mk.inj heq).2]

theorem isTree_empty (working : Location) : (empty working).IsTree := by
  refine isTree_of_nodes fun p hp _ => ?_
  obtain ⟨n, -, rfl⟩ := List.mem_map.1 hp
  exact node?_empty ((List.dropLast_prefix _).trans (List.take_prefix n working))

/-- On a tree, a path to anything but a directory ends in the name of that. -/
theorem IsTree.locate_eq_ok (htree : d.IsTree) (h : d.locate path = .ok location)
    (hnode : d.node? location ≠ some .directory) :
    ∃ front name above, path.pieces = front ++ [name.toList] ∧ isDirectoryName name = false ∧
      location = above ++ [name] ∧ d.walk (d.base path) (front.map String.ofList) = .ok above ∧
        d.node? above = some .directory := by
  obtain ⟨names, hnames, hwalk⟩ := Disk.locate_eq_ok.1 h
  obtain ⟨-, -, -, rfl⟩ := names_eq_ok hnames
  have hne : path.pieces ≠ [] := by
    rw [Path.pieces_eq]
    exact List.splitOn_ne_nil _ _
  obtain ⟨front, piece, hpieces⟩ : ∃ front piece, path.pieces = front ++ [piece] :=
    ⟨_, _, (List.dropLast_concat_getLast hne).symm⟩
  rw [hpieces, List.map_append, walk_append_eq_ok] at hwalk
  obtain ⟨above, hfront, hlast⟩ := hwalk
  rw [List.map_singleton, walk_singleton] at hlast
  obtain ⟨hdir, hcase⟩ := enter_cases hlast
  rcases hcase with ⟨-, rfl⟩ | ⟨-, rfl⟩ | ⟨hname, -, -, rfl⟩
  · exact absurd hdir hnode
  · -- above a directory there is a directory, and above the root the root
    refine absurd ?_ hnode
    rcases List.eq_nil_or_concat above with rfl | ⟨upper, name, rfl⟩
    · exact hdir
    · rw [List.concat_eq_append] at hdir ⊢
      rw [List.dropLast_concat]
      exact htree _ _ (by rw [hdir]; rfl)
  · exact ⟨front, _, above, by rw [hpieces, String.toList_ofList], hname, rfl, hfront, hdir⟩

/-! ## Making directories -/

/-- There are as many files as before, with the same contents, and directories may have come. -/
structure Grows (d d' : Disk) : Prop where
  working : d'.working = d.working
  node : ∀ location, d'.node? location = d.node? location ∨
    d.node? location = none ∧ d'.node? location = some .directory
  tree : d.IsTree → d'.IsTree

theorem Grows.refl (d : Disk) : Grows d d := ⟨rfl, fun _ => .inl rfl, id⟩

theorem Grows.trans (h : Grows d₁ d₂) (h' : Grows d₂ d₃) : Grows d₁ d₃ where
  working := h'.working.trans h.working
  tree := h'.tree ∘ h.tree
  node location := by
    rcases h'.node location with heq | ⟨hnone, hdir⟩
    · rw [heq]
      exact h.node location
    · rcases h.node location with heq | ⟨-, hdir'⟩
      · exact .inr ⟨heq ▸ hnone, hdir⟩
      · simp [hnone] at hdir'

theorem Grows.extends (h : Grows d d') : Extends d d' where
  working := h.working
  directory {location} hdir := by
    rcases h.node location with heq | ⟨-, hdir'⟩
    · rwa [heq]
    · exact hdir'
  present {location} hsome := by
    rcases h.node location with heq | ⟨-, hdir'⟩
    · rwa [heq]
    · simp [hdir']

theorem Grows.file_iff (h : Grows d d') {data : Array UInt8} :
    d'.node? location = some (.file data) ↔ d.node? location = some (.file data) := by
  rcases h.node location with heq | ⟨hnone, hdir⟩
  · rw [heq]
  · simp [hnone, hdir]

/-- A directory is made under a new name in another one, or nothing changes. -/
theorem makeDirectory_cases (path : Path) (d : Disk) :
    (d.makeDirectory path).2 = d ∨ ∃ location name, d.node? location = some .directory ∧
      d.node? (location ++ [name]) = none ∧
        (d.makeDirectory path).2 = d.put (location ++ [name]) .directory := by
  unfold makeDirectory
  dsimp only
  split
  · exact .inl rfl
  · rename_i location name hlast
    obtain ⟨-, -, -, hdir, -⟩ := locateLast_eq_ok hlast
    split_ifs with hname hsize hsome
    · exact .inl rfl
    · exact .inl rfl
    · exact .inl rfl
    · exact .inr ⟨location, name, hdir, by simpa using hsome, rfl⟩

theorem grows_makeDirectory (path : Path) (d : Disk) : Grows d (d.makeDirectory path).2 := by
  rcases makeDirectory_cases path d with h | ⟨location, name, hdir, hnone, h⟩
  · rw [h]
    exact .refl d
  · rw [h]
    refine ⟨rfl, fun other => ?_, fun htree => htree.put hdir fun _ => rfl⟩
    rw [node?_put]
    split
    · rename_i heq
      exact .inr ⟨heq ▸ hnone, rfl⟩
    · exact .inl rfl

/-! ## Making files -/

/-- The place `name` in `location`, to which a path leads, can hold a file. -/
structure Places (d : Disk) (path : Path) (location : Location) (name : String) : Prop where
  lookup : d.locateLast path = .ok (location, name)
  proper : isDirectoryName name = false
  size : name.utf8ByteSize ≤ maxName
  node : d.node? (location ++ [name]) ≠ some .directory

theorem createFile_cases (path : Path) (d : Disk) :
    (∃ reason, d.createFile path = (.error reason, d)) ∨ ∃ location name,
      d.Places path location name ∧
        d.createFile path = (.ok (), d.put (location ++ [name]) (.file #[])) := by
  unfold createFile
  cases hlast : d.locateLast path with
  | error reason => exact .inl ⟨reason, rfl⟩
  | ok place =>
    obtain ⟨location, name⟩ := place
    dsimp only
    split_ifs with hname hsize hdir
    · exact .inl ⟨_, rfl⟩
    · exact .inl ⟨_, rfl⟩
    · exact .inl ⟨_, rfl⟩
    · exact .inr ⟨location, name, ⟨hlast, by simpa using hname, Nat.le_of_not_lt hsize, hdir⟩, rfl⟩

namespace Places

variable {data : Array UInt8}

theorem directory (h : d.Places path location name) : d.node? location = some .directory := by
  obtain ⟨-, -, -, hdir, -⟩ := locateLast_eq_ok h.lookup
  exact hdir

/-- A file that is put in place replaces no directory. -/
theorem extends_put (h : d.Places path location name) :
    Extends d (d.put (location ++ [name]) (.file data)) where
  working := rfl
  directory {other} hdir := by
    rwa [node?_put_of_ne]
    rintro rfl
    exact h.node hdir
  present {other} hsome := by
    rw [node?_put]
    split
    · rfl
    · exact hsome

theorem tree (h : d.Places path location name) (htree : d.IsTree) :
    (d.put (location ++ [name]) (.file data)).IsTree :=
  htree.put h.directory fun hdir => absurd hdir h.node

/-- The path leads to the file that was put in place. -/
theorem locate_put (h : d.Places path location name) :
    (d.put (location ++ [name]) (.file data)).locate path = .ok (location ++ [name]) := by
  obtain ⟨names, hnames, hwalk, hdir, hname⟩ := locateLast_eq_ok h.lookup
  have hne : names ≠ [] := by
    rintro rfl
    rw [List.getLastD_nil] at hname
    subst hname
    cases h.proper
  have hsplit : names = names.dropLast ++ [name] := by
    rw [hname, List.getLastD_eq_getLast?, List.getLast?_eq_some_getLast hne, Option.getD_some,
      List.dropLast_concat_getLast]
  have hext : Extends d (d.put (location ++ [name]) (.file data)) := h.extends_put
  refine locate_eq_ok.2 ⟨names, hnames, ?_⟩
  rw [hsplit, walk_append_eq_ok, hext.base path]
  refine ⟨location, hext.walk hwalk, ?_⟩
  rw [walk_singleton]
  refine enter_name (hext.directory hdir) h.proper h.size ?_
  rw [node?_put_self]
  rfl

theorem appendFile (h : d.Places path location name) (bytes : Array UInt8) :
    (d.put (location ++ [name]) (.file data)).appendFile path bytes =
      (.ok (), d.put (location ++ [name]) (.file (data ++ bytes))) := by
  rw [Disk.appendFile, h.locate_put]
  simp only [node?_put_self, put_put]

end Places

end Disk

end Asm6502
