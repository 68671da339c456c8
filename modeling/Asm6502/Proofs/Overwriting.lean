import Asm6502.Proofs.Assembly

/-!
# When a listing replaces its own source

An input whose name has the ending of listings, with its own directory for output, is the place of
its own listing (`Disk.SelfListing`). On a tree these are the only paths for which it is
(`Disk.IsTree.listing_at_input_iff`), however they are written. In all other cases a run leaves the
source as it was.
-/

namespace Asm6502

namespace Disk

variable {d : Disk} {location other : Location} {input directory path : Path}
  {name : String}

/-! ## Directories that names are joined to -/

/-- A name joined to the path is looked up at the location. The empty path stands for the working
directory then. -/
def Leads (d : Disk) (path : Path) (location : Location) : Prop :=
  path.text = "" ∧ location = d.working ∨ d.locate path = .ok location

theorem Leads.unique (h : d.Leads path location) (h' : d.Leads path other) : location = other := by
  have hne {location : Location} (hlocate : d.locate path = .ok location) : path.text ≠ "" := by
    obtain ⟨names, hnames, -⟩ := locate_eq_ok.1 hlocate
    exact (names_eq_ok hnames).2.1
  rcases h with ⟨htext, rfl⟩ | hlocate <;> rcases h' with ⟨htext', rfl⟩ | hlocate'
  · rfl
  · exact absurd htext (hne hlocate')
  · exact absurd htext' (hne hlocate)
  · exact Except.ok.inj (hlocate.symm.trans hlocate')

/-- A path to which a name can be joined to get to a file leads to the directory of that file. -/
theorem IsTree.locate_join (htree : d.IsTree) (hslash : '/' ∉ name.toList)
    (h : d.locate (directory.join name) = .ok location)
    (hnode : d.node? location ≠ some .directory) :
    ∃ above, location = above ++ [name] ∧ d.Leads directory above := by
  obtain ⟨front, last, above, hpieces, -, rfl, hwalk, hdir⟩ := htree.locate_eq_ok h hnode
  obtain ⟨front', hpieces', habs, hfront⟩ := Path.pieces_join (p := directory) hslash
  obtain ⟨rfl, hlast⟩ := List.append_inj' (hpieces'.symm.trans hpieces) rfl
  obtain rfl := String.toList_inj.1 (List.singleton_inj.1 hlast)
  have hbase : d.base (directory.join name) = d.base directory := by rw [base, base, habs]
  rw [hbase] at hwalk
  refine ⟨above, rfl, ?_⟩
  obtain ⟨names, hnames, -⟩ := Disk.locate_eq_ok.1 h
  obtain ⟨rest, htext⟩ := Path.join_text (p := directory) hslash
  rcases hfront with ⟨hempty, rfl⟩ | ⟨hempty, hfront⟩
  · refine .inl ⟨hempty, ?_⟩
    simpa [walk, base, Path.isAbsolute, hempty, eq_comm] using hwalk
  · refine .inr (Disk.locate_eq_ok.2 ⟨_, names_of_prefix hnames htext hempty, ?_⟩)
    rcases hfront with hfront | hfront
    · rwa [hfront]
    · -- the slash at the end of the directory stands for one more look-up, in itself
      rw [hfront, List.map_append, walk_append_eq_ok, List.map_singleton]
      refine ⟨above, hwalk, ?_⟩
      rw [walk_singleton]
      exact enter_idle hdir (.inl rfl)

/-! ## Inputs that are their own listing -/

/-- The file name of an input has the ending of listings, and the directory for the listing is the
one that the input is in. -/
def SelfListing (d : Disk) (input directory : Path) (location : Location) : Prop :=
  (∃ stem, stem ≠ "" ∧ input.fileName? = some (stem ++ ".tokens")) ∧
    d.Leads directory location.dropLast

theorem IsTree.listing_at_input_iff (htree : d.IsTree) (hinput : d.locate input = .ok location)
    (hnode : d.node? location ≠ some .directory)
    (hpath : Job.listingPath { input, output := some directory } = some path)
    (hlisting : d.locate path = .ok other) (hother : d.node? other ≠ some .directory) :
    other = location ↔ d.SelfListing input directory location := by
  obtain ⟨front, name, above, hpieces, hproper, rfl, -⟩ := htree.locate_eq_ok hinput hnode
  obtain ⟨hempty, hdot, hdots⟩ := isDirectoryName_eq_false.1 hproper
  have hfile := Path.fileName?_of_pieces hpieces hempty hdot hdots
  have hslash : '/' ∉ (Path.beforeLastDot name ++ ".tokens").toList := by
    have hpiece : '/' ∉ name.toList := Path.slash_not_mem_piece (p := input) (by simp [hpieces])
    rw [String.toList_append, List.mem_append, not_or]
    exact ⟨fun h => hpiece (Path.mem_of_mem_beforeLastDot h), by decide⟩
  have hjoin : path = directory.join (Path.beforeLastDot name ++ ".tokens") := by
    simpa [Job.listingPath, Path.stem?, hfile] using hpath.symm
  rw [hjoin] at hlisting
  obtain ⟨above', rfl, hleads⟩ := htree.locate_join hslash hlisting hother
  rw [SelfListing, List.dropLast_concat]
  constructor
  · intro h
    obtain ⟨rfl, hsame⟩ := List.append_inj' h rfl
    refine ⟨⟨Path.beforeLastDot name, Path.beforeLastDot_ne_empty hempty, ?_⟩, hleads⟩
    rw [hfile, List.singleton_inj.1 hsame]
  · rintro ⟨⟨stem, hstem, hending⟩, hleads'⟩
    obtain rfl := Option.some.inj (hfile.symm.trans hending)
    rw [hleads.unique hleads', Path.beforeLastDot_append hstem]

end Disk

namespace World

variable {w : World} {input : Path} {location : Location} {data : Array UInt8}

/-- A source named like a listing, with its own directory for output. -/
theorem source_replaced :
    let w : World := { disk := ⟨["w"], [([], .directory), (["w"], .directory),
      (["w", "a.tokens"], .file #[0x58])]⟩ }
    let job : Job := ⟨⟨"a.tokens"⟩, some ⟨"."⟩⟩
    w.disk.IsTree ∧ w.disk.locate job.input = .ok ["w", "a.tokens"] ∧
      (w.assemble job).1 = .ok () ∧
      (w.assemble job).2.disk.locate job.input = .ok ["w", "a.tokens"] ∧
      (w.assemble job).2.disk.node? ["w", "a.tokens"] ≠ w.disk.node? ["w", "a.tokens"] := by
  intro w job
  exact ⟨Disk.isTree_of_nodes (by decide +kernel), by decide +kernel, by decide +kernel,
    by decide +kernel, by decide +kernel⟩

/-- A run leaves the source as it was, unless it succeeds and the source is the place of its own
listing: then the listing of what the source was is there. -/
theorem source_kept_or_own_listing (directory : Path) (htree : w.disk.IsTree)
    (hinput : w.disk.locate input = .ok location)
    (hdata : w.disk.node? location = some (.file data)) :
    let job : Job := { input, output := some directory }
    let w' := (w.assemble job).2
    (¬w'.disk.SelfListing input directory location ∨ (w.assemble job).1 ≠ .ok () →
        w'.disk.node? location = some (.file data)) ∧
      (∀ path, job.listingPath = some path → w'.disk.locate path = .ok location →
        w'.disk.SelfListing input directory location) ∧
      (w'.disk.SelfListing input directory location → (w.assemble job).1 = .ok () →
        ∃ ts path, w.disk.tokens input = .ok ts ∧ job.listingPath = some path ∧
          w'.disk.locate path = .ok location ∧
          w'.disk.node? location = some (.file (ts.flatMap Token.listingBytes).toArray)) := by
  intro job w'
  have hends : Ends job w (w.assemble job).1 w'.disk := ends job w
  generalize (w.assemble job).1 = outcome at hends ⊢
  generalize w'.disk = d at hends ⊢
  have htree' := hends.tree htree
  rcases hends.grows_or_written with ⟨hgrows, hnot⟩ | ⟨ts, path, d', above, name, rfl, htokens,
    hpath, hgrows, hplaces, rfl⟩
  · have hkept := hgrows.file_iff.2 hdata
    refine ⟨fun _ => hkept, fun path hpath hlocate => ?_, fun _ hok => absurd hok (hnot rfl)⟩
    have hnode : d.node? location ≠ some .directory := by simp [hkept]
    exact (htree'.listing_at_input_iff (hgrows.extends.locate hinput) hnode hpath hlocate hnode).1
      rfl
  · generalize hbytes : (ts.flatMap Token.listingBytes).toArray = bytes
    have hput : (d'.put (above ++ [name]) (.file bytes)).node? (above ++ [name]) =
        some (.file bytes) := Disk.node?_put_self
    have hother (hne : location ≠ above ++ [name]) :
        (d'.put (above ++ [name]) (.file bytes)).node? location = some (.file data) := by
      rw [Disk.node?_put_of_ne hne]
      exact hgrows.file_iff.2 hdata
    have hnode : (d'.put (above ++ [name]) (.file bytes)).node? location ≠ some .directory := by
      by_cases hsame : location = above ++ [name]
      · simp [hsame, hput]
      · simp [hother hsame]
    rw [hbytes] at htree'
    have hinput' : (d'.put (above ++ [name]) (.file bytes)).locate input = .ok location :=
      hplaces.extends_put.locate (hgrows.extends.locate hinput)
    have hiff := htree'.listing_at_input_iff hinput' hnode hpath hplaces.locate_put (by simp [hput])
    refine ⟨fun h => ?_, fun path' hpath' hlocate => ?_, fun hself _ => ?_⟩
    · have hnot := h.resolve_right fun hok => hok rfl
      exact hother fun hsame => hnot (hiff.1 hsame.symm)
    · obtain rfl := Option.some.inj (hpath'.symm.trans hpath)
      exact hiff.1 (Except.ok.inj (hplaces.locate_put.symm.trans hlocate))
    · obtain rfl := hiff.2 hself
      exact ⟨ts, path, htokens, hpath, hplaces.locate_put, by rw [hput, hbytes]⟩

/-- A source of another name, listed beside itself. -/
theorem source_kept_or_own_listing_register :
    let w : World := { disk := ⟨["w"], [([], .directory), (["w"], .directory),
      (["w", "x.s"], .file #[0x58])]⟩ }
    let w' := (w.assemble ⟨⟨"x.s"⟩, some ⟨"."⟩⟩).2
    w'.disk.node? ["w", "x.s"] = some (.file #[0x58]) ∧
      (w'.disk.node? ["w", "x.tokens"]).isSome = true ∧
      w'.disk.locate ⟨"./x.tokens"⟩ ≠ .ok ["w", "x.s"] := by
  intro w w'
  have htree : w.disk.IsTree := Disk.isTree_of_nodes (by decide +kernel)
  have hinput : w.disk.locate ⟨"x.s"⟩ = .ok ["w", "x.s"] := by decide +kernel
  have hdata : w.disk.node? ["w", "x.s"] = some (.file #[0x58]) := by decide +kernel
  obtain ⟨hkept, hself, -⟩ := source_kept_or_own_listing ⟨"."⟩ htree hinput hdata
  have hnot : ¬w'.disk.SelfListing ⟨"x.s"⟩ ⟨"."⟩ ["w", "x.s"] := by
    rintro ⟨⟨stem, -, hfile⟩, -⟩
    have hname : (Path.mk "x.s").fileName? = some "x.s" := by decide +kernel
    have hlength := congrArg String.length (Option.some.inj (hname.symm.trans hfile))
    rw [String.length_append] at hlength
    have hending : ".tokens".length = 7 := rfl
    have hshort : "x.s".length = 3 := rfl
    omega
  exact ⟨hkept (.inl hnot), by decide +kernel,
    fun hlocate => hnot (hself _ (by decide +kernel) hlocate)⟩

end World

end Asm6502
