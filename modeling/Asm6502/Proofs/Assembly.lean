import Asm6502.World
import Asm6502.Proofs.Disks
import Asm6502.Proofs.Interchange
import Asm6502.Proofs.Listings

/-!
# What assembling does to a disk

A run scans its source, makes directories, makes the listing file and writes to it, and can stop
before each of these steps. `World.Ends` has one case for each way to end, with the outcome and the
disk that is left (`World.ends`). From it follows that a source without tokens changes nothing, and
that the listing of any other source is complete (`World.listing_or_nothing`).
-/

namespace Asm6502

open Disk (Grows Places)

/-! ## Listings of whole sources -/

namespace Lexer

variable {ρ : Type} {l : Lexer ρ} {a : Arena Token} {s : List (Handle × Token)}

/-- Nothing goes wrong in writing to a sink that takes everything. -/
theorem Stands.dump_ok (hl : Stands a s l) {w : Sink} (hroom : w.room = none)
    (hflush : w.flushFault = none) : (l.dump w).1.1 = .ok () := by
  fun_induction dump l w with
  | case1 l w e hget => simp [hl.get] at hget
  | case2 l w t hget reason w' hwrite => cases (Sink.written hroom hwrite).1
  | case3 l w t hget w' hwrite l' hn ih =>
    obtain ⟨-, hroom', hkept, -⟩ := Sink.written hroom hwrite
    exact ih (by simpa [hn] using hl.next) hroom' (hkept.trans hflush)
  | case4 => rfl
  | case5 l w t hget w' hwrite e l' hn _ reason w'' hfail =>
    obtain ⟨-, -, hkept, -⟩ := Sink.written hroom hwrite
    have hflushed : Sink.flush w' = (.error reason, w'') := hfail
    simp [Sink.flush, hkept.trans hflush] at hflushed
  | case6 l w t hget w' hwrite e l' hn hcode =>
    -- a move from the last token fails with this code, and no other move fails
    by_cases hlt : l.index + 1 < s.length
    · obtain ⟨l'', hok, -⟩ := hl.next_ok hlt
      simp [hn] at hok
    · rw [hl.next_error (by omega)] at hn
      obtain rfl := Except.error.inj (Prod.mk.inj hn).1
      exact absurd rfl hcode

/-- The listing of a lexer that was made has the lines of all its tokens. -/
theorem listing_of_made [Reader ρ] {r : ρ} (h : (ofReader r).1 = .ok l) :
    l.listing = .ok (l.tokens.toList.flatMap Token.listingBytes).toArray := by
  obtain ⟨s, ts, hstands, -⟩ := ofReader_stands h
  have hwalk : l.walk = l.tokens.toList := by
    obtain ⟨st, ts', rfl⟩ := ofReader_eq_ok h
    rw [hstands.walk, hstands.tokens, hstands.holds.toList_eq, List.drop_zero]
  have hok := hstands.dump_ok (w := {}) rfl rfl
  have hreceived := dump_received l (w := {}) rfl
  unfold listing
  split
  · rename_i l' sink hdump
    rw [hdump, hwalk] at hreceived
    simpa [← Array.toList_inj] using hreceived
  · rename_i e l' sink hdump
    simp [hdump] at hok

end Lexer

/-! ## Sources on a disk -/

namespace Disk

/-- The lexer of what is at a path. -/
def scan (d : Disk) (path : Path) : Except Error (Lexer FileReader) :=
  match d.openFile path with
  | .error reason => .error (.ofCause (.openFailed path reason))
  | .ok file => (Lexer.ofReader ({ path, handle := some file } : FileReader)).1

/-- The tokens of the file at a path. There are none if nothing can be opened or read there, if the
file is empty, or if its scan fails. -/
def tokens (d : Disk) (path : Path) : Except Error (List Token) :=
  match d.openFile path with
  | .error reason => .error (.ofCause (.openFailed path reason))
  | .ok file =>
    match file.node with
    | .directory => .error (.ofCause (.readFailed path .isDirectory))
    | .file data =>
      if data.isEmpty then .error (.ofCause (.emptyFile path))
      else (Scan.ofBytes path data.toList).outcome

theorem openFile_eq_ok {d : Disk} {path : Path} {file : OpenFile} (h : d.openFile path = .ok file) :
    ∃ node, file = { node } := by
  obtain ⟨location, -, h⟩ := bind_eq_ok.1 h
  split at h
  · exact ⟨_, (Except.ok.inj h).symm⟩
  · cases h

/-- A directory can be opened, but not read. -/
theorem ofReader_directory (path : Path) :
    (Lexer.ofReader ({ path, handle := some { node := .directory } } : FileReader)).1 =
      .error (.ofCause (.readFailed path .isDirectory)) := by
  let opened : FileReader := { path, handle := some { node := .directory } }
  have hread : Reader.read 1 opened =
      (.error (.ofCause (.readFailed path .isDirectory)), opened) := by
    show FileReader.read 1 opened = _
    simp [opened, FileReader.read, OpenFile.readExact, OpenFile.request]
  have hbyte : Reader.readByte opened =
      (.error (.ofCause (.readFailed path .isDirectory)), opened) := by
    rw [Reader.readByte, hread]
  have hreset : Reader.reset opened = (.ok (), opened) := rfl
  have hsize : Reader.size opened = .ok 4096 := rfl
  have hstream : Stream.ofReader opened = .error (.ofCause (.readFailed path .isDirectory)) := by
    simp [Stream.ofReader, hsize, Stream.reset, hreset, hbyte]
  rw [Lexer.ofReader, hstream]

theorem scan_tokens (d : Disk) (path : Path) :
    (d.scan path).map (·.tokens.toList) = d.tokens path := by
  unfold scan tokens
  cases hopen : d.openFile path with
  | error reason => rfl
  | ok file =>
    obtain ⟨node, rfl⟩ := openFile_eq_ok hopen
    cases node with
    | directory => exact congrArg (Except.map _) (ofReader_directory path)
    | file data =>
      have hheld : Reader.Holds ({ path, handle := some { node := .file data } } : FileReader)
          path data.toList :=
        FileReader.holds ⟨_, rfl, rfl, rfl, Nat.zero_le _⟩
      dsimp only
      split
      · rename_i hempty
        rw [Array.isEmpty_iff.1 hempty] at hheld ⊢
        rw [Lexer.ofReader_of_empty hheld]
        rfl
      · rename_i hne
        exact Lexer.ofReader_outcome hheld (by simpa using hne)

/-- The last token is the final one. -/
theorem tokens_eq_ok {d : Disk} {path : Path} {ts : List Token} (h : d.tokens path = .ok ts) :
    ∃ body, ts = body ++ [.finish] := by
  unfold tokens at h
  split at h
  · cases h
  · split at h
    · cases h
    · split at h
      · cases h
      · unfold Scan.outcome at h
        split at h
        · exact ⟨_, (Except.ok.inj h).symm⟩
        · cases h

theorem listing_of_scan {d : Disk} {path : Path} {l : Lexer FileReader} (h : d.scan path = .ok l) :
    l.listing = .ok (l.tokens.toList.flatMap Token.listingBytes).toArray := by
  unfold scan at h
  split at h
  · cases h
  · exact Lexer.listing_of_made h

end Disk

/-! ## Computations on a world -/

namespace World

variable {α β : Type} {w w' : World} {job : Job} {outcome : Except Error Unit} {d : Disk}
  {path : Path} {ts : List Token}

theorem run_onDisk (f : Disk → α × Disk) (w : World) :
    (onDisk f).run w = ((f w.disk).1, { w with disk := (f w.disk).2 }) := rfl

/-- A computation that sees and changes only the disk, and only makes directories. -/
def Growing (x : StateM World α) : Prop :=
  ∃ f : Disk → α × Disk, x = onDisk f ∧ ∀ d, Grows d (f d).2

theorem growing_pure (a : α) : Growing (pure a) := ⟨fun d => (a, d), rfl, Grows.refl⟩

theorem Growing.bind {x : StateM World α} {k : α → StateM World β} (hx : Growing x)
    (hk : ∀ a, Growing (k a)) : Growing (x >>= k) := by
  obtain ⟨f, rfl, hf⟩ := hx
  choose g hg hgrows using hk
  refine ⟨fun d => g (f d).1 (f d).2, ?_, fun d => (hf d).trans (hgrows _ _)⟩
  funext w
  show k (f w.disk).1 _ = _
  rw [hg]
  rfl

theorem growing_makeDirectory (path : Path) :
    Growing (Host.makeDirectory path : StateM World _) :=
  ⟨Disk.makeDirectory path, rfl, Disk.grows_makeDirectory path⟩

theorem growing_isDirectory (path : Path) : Growing (Host.isDirectory path : StateM World _) :=
  ⟨fun d => (d.isDirectory path, d), rfl, Grows.refl⟩

theorem growing_settle (path : Path) (outcome : Except OsError Unit) :
    Growing (Host.settle path outcome : StateM World _) := by
  unfold Host.settle
  split
  · exact growing_pure _
  · refine (growing_isDirectory path).bind fun there => ?_
    cases there <;> exact growing_pure _

theorem growing_makeDirectories (paths : List Path) :
    Growing (Host.makeDirectories paths : StateM World _) := by
  induction paths with
  | nil => exact growing_pure _
  | cons path above ih =>
    rw [Host.makeDirectories]
    split
    · exact growing_pure _
    · refine (growing_makeDirectory path).bind fun outcome => ?_
      split
      · exact growing_pure _
      · refine ih.bind fun outcome => ?_
        split
        · exact growing_pure _
        · exact (growing_makeDirectory path).bind (growing_settle path)
      · exact growing_settle path _

/-! ## Runs -/

section Steps

variable {x : ExceptT Error (StateM World) α} {k : α → ExceptT Error (StateM World) β} {a : α}
  {e : Error}

theorem run_bind_ok (h : x.run.run w = (.ok a, w')) :
    (x >>= k).run.run w = (k a).run.run w' := by
  rw [ExceptT.run_bind, StateT.run_bind, h]
  rfl

theorem run_bind_error (h : x.run.run w = (.error e, w')) :
    (x >>= k).run.run w = (.error e, w') := by
  rw [ExceptT.run_bind, StateT.run_bind, h]
  rfl

theorem run_require_ok {action : StateM World (Except OsError α)} {cause : OsError → Cause}
    (h : action.run w = (.ok a, w')) : (Host.require cause action).run.run w = (.ok a, w') := by
  show (action >>= _).run w = _
  rw [StateT.run_bind, h]
  rfl

theorem run_require_error {action : StateM World (Except OsError α)} {cause : OsError → Cause}
    {reason : OsError} (h : action.run w = (.error reason, w')) :
    (Host.require cause action).run.run w = (.error (.ofCause (cause reason)), w') := by
  show (action >>= _).run w = _
  rw [StateT.run_bind, h]
  rfl

end Steps

/-- Reports change the log and nothing else. -/
theorem run_reports (events : List Event) (w : World) : ∃ log,
    (events.forM fun event => ((Host.log event : StateM World Unit) :
      ExceptT Error (StateM World) Unit)).run.run w = (.ok (), { w with log }) := by
  induction events generalizing w with
  | nil => exact ⟨w.log, rfl⟩
  | cons event events ih =>
    obtain ⟨log, hlog⟩ := ih { w with log := w.log.push event }
    exact ⟨log, hlog⟩

/-- Scanning a source file changes the log and nothing else. -/
theorem run_scanFile (path : Path) (w : World) : ∃ log,
    (scanFile (Host.log : Event → StateM World Unit) path).run.run w =
      (w.disk.scan path, { w with log }) := by
  have hopen : (Host.openFile path : StateM World _).run w = (w.disk.openFile path, w) := rfl
  unfold scanFile Disk.scan
  cases hfile : w.disk.openFile path with
  | error reason =>
    rw [hfile] at hopen
    exact ⟨w.log, run_bind_error (run_bind_error (run_require_error hopen))⟩
  | ok file =>
    rw [hfile] at hopen
    let opened : FileReader := { path, handle := some file }
    have hsource : (openSource (Host.log : Event → StateM World Unit) path).run.run w =
        (.ok opened, { w with log := w.log.push (.opened path) }) :=
      run_bind_ok (run_require_ok hopen)
    obtain ⟨log, hlog⟩ := run_reports (Lexer.ofReader opened).2
      { w with log := w.log.push (.opened path) }
    refine ⟨log, ?_⟩
    rw [run_bind_ok hsource]
    exact run_bind_ok hlog

/-- Makes the directories that a file at a path needs. -/
def makeRoom (path : Path) : StateM World (Except OsError Unit) :=
  path.parent?.elim (pure (.ok ())) fun directory => Host.makeDirectories directory.ancestors

theorem growing_makeRoom (path : Path) : Growing (makeRoom path) := by
  unfold makeRoom
  cases path.parent? with
  | none => exact growing_pure _
  | some directory => exact growing_makeDirectories _

/-- The directories that a file at a path needs can be made, and then the file. -/
def Allows (w : World) (path : Path) : Prop :=
  ((makeRoom path).run w).1 = .ok () ∧
    (((makeRoom path).run w).2.disk.createFile path).1 = .ok ()

/-- How a run can end: with which outcome and with which disk. -/
inductive Ends (job : Job) (w : World) : Except Error Unit → Disk → Prop where
  | refused {e : Error} (htokens : w.disk.tokens job.input = .error e) :
    Ends job w (.error e) w.disk
  | printed {ts : List Token} (htokens : w.disk.tokens job.input = .ok ts)
    (hpath : job.listingPath = none) : Ends job w (.ok ()) w.disk
  | stopped {ts : List Token} {path : Path} {e : Error} {d : Disk}
    (htokens : w.disk.tokens job.input = .ok ts) (hpath : job.listingPath = some path)
    (hnot : ¬w.Allows path) (hgrows : Grows w.disk d) : Ends job w (.error e) d
  | written {ts : List Token} {path : Path} {d : Disk} {location : Location} {name : String}
    (htokens : w.disk.tokens job.input = .ok ts) (hpath : job.listingPath = some path)
    (hallows : w.Allows path) (hgrows : Grows w.disk d) (hplaces : d.Places path location name) :
    Ends job w (.ok ())
      (d.put (location ++ [name]) (.file (ts.flatMap Token.listingBytes).toArray))

/-- With the directories made, the run ends with a file made and written to, or in failing to make
it. -/
theorem ends_of_write {bytes : Array UInt8}
    (htokens : w.disk.tokens job.input = .ok ts) (hpath : job.listingPath = some path)
    (hbytes : bytes = (ts.flatMap Token.listingBytes).toArray)
    (hgrows : Grows w.disk w'.disk)
    (hallows : w.Allows path ↔ (w'.disk.createFile path).1 = .ok ()) :
    let write : ExceptT Error (StateM World) Unit := do
      Host.require (.openFailed path) (Host.createFile path)
      let listing ← ExceptT.mk (pure (.ok bytes))
      Host.require (fun reason => .writeFailed reason.message) (Host.appendFile path listing)
      (Host.log (.wrote path) : StateM World Unit)
    Ends job w (write.run.run w').1 (write.run.run w').2.disk := by
  intro write
  have hcreate : (Host.createFile path : StateM World _).run w' =
      ((w'.disk.createFile path).1, { w' with disk := (w'.disk.createFile path).2 }) := rfl
  rcases w'.disk.createFile_cases path with ⟨reason, h⟩ | ⟨location, name, hplaces, h⟩
  · rw [h] at hcreate hallows
    have hrun : write.run.run w' = (.error _, w') := run_bind_error (run_require_error hcreate)
    rw [hrun]
    exact .stopped htokens hpath (by simp [hallows]) hgrows
  · rw [h] at hcreate hallows
    have happend : (Host.appendFile path bytes : StateM World _).run
        { w' with disk := w'.disk.put (location ++ [name]) (.file #[]) } =
          (.ok (), { w' with disk := w'.disk.put (location ++ [name]) (.file bytes) }) := by
      show (onDisk (Disk.appendFile path bytes)).run _ = _
      rw [run_onDisk, hplaces.appendFile, Array.empty_append]
    have hrun : write.run.run w' = (.ok (), { w' with
        disk := w'.disk.put (location ++ [name]) (.file bytes)
        log := w'.log.push (.wrote path) }) := by
      refine (run_bind_ok (run_require_ok hcreate)).trans ?_
      refine (run_bind_ok (x := ExceptT.mk (pure (.ok bytes))) rfl).trans ?_
      exact run_bind_ok (run_require_ok happend)
    rw [hrun, hbytes]
    exact .written htokens hpath (hallows.2 rfl) hgrows hplaces

/-- Every run ends in one of these ways. -/
theorem ends (job : Job) (w : World) :
    Ends job w (w.assemble job).1 (w.assemble job).2.disk := by
  obtain ⟨log, hscan⟩ := run_scanFile job.input w
  have htokens := w.disk.scan_tokens job.input
  unfold assemble Asm6502.assemble
  dsimp only
  cases hlexer : w.disk.scan job.input with
  | error e =>
    rw [hlexer] at hscan htokens
    rw [run_bind_error hscan]
    exact .refused htokens.symm
  | ok l =>
    rw [hlexer] at hscan htokens
    rw [run_bind_ok hscan, Disk.listing_of_scan hlexer]
    cases hpath : job.listingPath with
    | none => exact .printed htokens.symm hpath
    | some path =>
      dsimp only
      obtain ⟨f, hf, hgrows⟩ := growing_makeRoom path
      have hallows : w.Allows path ↔
          (f w.disk).1 = .ok () ∧ ((f w.disk).2.createFile path).1 = .ok () := by
        rw [Allows, hf, run_onDisk]
      cases hparent : path.parent? with
      | none =>
        have hrun : (.ok (), w) = (onDisk f).run w := by
          rw [← hf, makeRoom, hparent]
          rfl
        rw [run_onDisk] at hrun
        have hnone : f w.disk = (.ok (), w.disk) :=
          Prod.ext (congrArg Prod.fst hrun).symm (congrArg (·.2.disk) hrun).symm
        exact ends_of_write htokens.symm hpath rfl (.refl _) (by simp [hallows, hnone])
      | some directory =>
        have hmake : (Host.makeDirectories directory.ancestors : StateM World _).run
            { w with log } = ((f w.disk).1, { w with disk := (f w.disk).2, log }) := by
          rw [makeRoom, hparent] at hf
          exact congrFun hf _
        cases hmade : (f w.disk).1 with
        | error reason =>
          rw [hmade] at hmake
          dsimp only
          rw [run_bind_error (run_require_error hmake)]
          exact .stopped htokens.symm hpath (by simp [hallows, hmade]) (hgrows _)
        | ok _ =>
          rw [hmade] at hmake
          dsimp only
          rw [run_bind_ok (run_require_ok hmake)]
          exact ends_of_write htokens.symm hpath rfl (hgrows _) (by simp [hallows, hmade])

/-- A run with an output directory that does not succeed makes directories at most. -/
theorem Ends.grows_or_written (h : Ends job w outcome d) :
    (Grows w.disk d ∧ (job.output.isSome → outcome ≠ .ok ())) ∨
      ∃ ts path d₁ location name, outcome = .ok () ∧ w.disk.tokens job.input = .ok ts ∧
        job.listingPath = some path ∧ Grows w.disk d₁ ∧ Disk.Places d₁ path location name ∧
          d = d₁.put (location ++ [name]) (.file (ts.flatMap Token.listingBytes).toArray) := by
  cases h with
  | refused => exact .inl ⟨.refl _, by simp⟩
  | printed _ hpath => exact .inl ⟨.refl _, by simp_all [Job.listingPath]⟩
  | stopped _ _ _ hgrows => exact .inl ⟨hgrows, by simp⟩
  | written htokens hpath _ hgrows hplaces =>
    exact .inr ⟨_, _, _, _, _, rfl, htokens, hpath, hgrows, hplaces, rfl⟩

theorem Ends.tree (h : Ends job w outcome d) (htree : w.disk.IsTree) : d.IsTree := by
  rcases h.grows_or_written with ⟨hgrows, -⟩ | ⟨ts, path, d₁, location, name, -, -, -, hgrows,
    hplaces, rfl⟩
  · exact hgrows.tree htree
  · exact hplaces.tree (hgrows.tree htree)

theorem Ends.of_no_tokens {e : Error} (h : Ends job w outcome d)
    (htokens : w.disk.tokens job.input = .error e) : outcome = .error e ∧ d = w.disk := by
  cases h with
  | refused hrefused =>
    obtain rfl := Except.error.inj (hrefused.symm.trans htokens)
    exact ⟨rfl, rfl⟩
  | printed hts | stopped hts | written hts => simp [hts] at htokens

/-- With tokens, a listing path and room for a listing there is only one way to end. -/
theorem Ends.of_tokens (h : Ends job w outcome d) (htokens : w.disk.tokens job.input = .ok ts)
    (hpath : job.listingPath = some path) (hallows : w.Allows path) :
    outcome = .ok () ∧ ∃ d₁ location name, Grows w.disk d₁ ∧ d₁.Places path location name ∧
      d = d₁.put (location ++ [name]) (.file (ts.flatMap Token.listingBytes).toArray) := by
  cases h with
  | refused hrefused => simp [hrefused] at htokens
  | printed _ hnone => simp [hnone] at hpath
  | stopped _ hsome hnot =>
    obtain rfl := Option.some.inj (hsome.symm.trans hpath)
    exact absurd hallows hnot
  | written hts hsome _ hgrows hplaces =>
    obtain rfl := Option.some.inj (hsome.symm.trans hpath)
    obtain rfl := Except.ok.inj (hts.symm.trans htokens)
    exact ⟨rfl, _, _, _, hgrows, hplaces, rfl⟩

end World

end Asm6502
