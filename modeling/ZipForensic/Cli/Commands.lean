import ZipForensic.Core.ArchiveSession
import ZipForensic.Forensic.Notes

/-!
# The command line (cli/src/lib.rs, cli/src/main.rs)

`zip4n6 list` prints a line for each entry, `zip4n6 audit` one for each finding. Both
write while they work, through a writer that may give up.

- `list`, `audit`, `dispatch`, `main`: the commands, with the texts they print.
- `Listed`: how a listing of entries can end — complete, stopped by the first entry that
  `by_index` refuses, or cut by the writer — and what has been printed then.
- `dispatch_list`: `zip4n6 list` on every archive and every writer.
-/

namespace ZipForensic

variable {k : Crates}

namespace Cli

/-- Errors surfaced by the command line. -/
inductive CliError
  /-- Wrong or insufficient arguments; carries the usage text. -/
  | usage (text : String)
  | io (source : IoError)
  | zip (source : ZipCoreError)
deriving DecidableEq

namespace CliError

/-- `Display`. -/
def display : CliError → String
  | usage text => text
  | io source => s!"I/O error: {source.display}"
  | zip source => s!"zip error: {source.display}"

end CliError

/-- The `From` conversion behind `?`. -/
def zipFault : Fault ZipCoreError → Fault CliError
  | .error e => .error (.zip e)
  | .panic => .panic

/-! ## The commands -/

def usage : String := "usage: zip4n6 <list|audit> <file.zip>"

/-- The files on disk: what opening a path gives, and the bytes behind it. -/
abbrev Files := String → Except IoError Bytes

/-- `{:>10}`. -/
def rightAlign (width : Nat) (s : String) : String :=
  String.ofList (List.replicate (width - s.length) ' ') ++ s

/-- A line of `list`: size, method and name. -/
def row (size : Nat) (compression : CompressionMethod) (name : String) : String :=
  rightAlign 10 (toString size) ++ "  " ++ compression.debug ++ "  " ++ name

/-- `audit_path`. -/
def auditPath (k : Crates) (files : Files) (path : String) : Res ZipCoreError (List Anomaly) :=
  match files path with
  | .error e => Res.err (.io e)
  | .ok bytes => auditReader k ⟨bytes, 0⟩

/-- A line of the report. -/
def reportLine (fmt : Formats) (x : Anomaly) : String :=
  "[" ++ fmt.severity x.severity ++ "] " ++ x.code ++ ": " ++ x.kind.note fmt

def reportLines (fmt : Formats) (findings : List Anomaly) : List String :=
  if findings = [] then ["no anomalies found"] else findings.map (reportLine fmt)

section Writing

variable {ω : Type} [Write IoError ω]

/-- The loop of `list` over the indexes that are left. -/
def listLoop (k : Crates) : List Nat → ZipArchive → ω → Res CliError Unit × ω
  | [], _, out => (.ok (), out)
  | i :: is, archive, out =>
    match (archive.byIndex i : Opened k) with
    | .error (e, _) => (.error (zipFault e), out)
    | .ok e =>
      match writeln (row e.size e.compression e.name) out with
      | (.error err, out) => (Res.err (.io err), out)
      | (.ok (), out) => listLoop k is { archive with reader := e.release } out

/-- `list`: enumerate entries with method and uncompressed size. -/
def list (k : Crates) (files : Files) (path : String) (out : ω) : Res CliError Unit × ω :=
  match files path with
  | .error e => (Res.err (.io e), out)
  | .ok bytes =>
    match ZipArchive.new ⟨bytes, 0⟩ with
    | .error e => (.error (zipFault e), out)
    | .ok archive => listLoop k (List.range archive.entries.length) archive out

/-- `audit`: run the forensic audit and print each finding (or a clean message). -/
def audit (k : Crates) (fmt : Formats) (files : Files) (path : String) (out : ω) :
    Res CliError Unit × ω :=
  match auditPath k files path with
  | .error e => (.error (zipFault e), out)
  | .ok findings =>
    match writeLines (reportLines fmt findings) out with
    | (.error e, out) => (Res.err (.io e), out)
    | (.ok (), out) => (.ok (), out)

/-- Dispatch a parsed argv to a subcommand, writing output to `out`. -/
def dispatch (k : Crates) (fmt : Formats) (files : Files) (args : List String) (out : ω) :
    Res CliError Unit × ω :=
  match args[1]?, args[2]? with
  | some "list", some path => list k files path out
  | some "audit", some path => audit k fmt files path out
  | _, _ => (Res.err (.usage usage), out)

/-- How the process ends. -/
inductive Exit
  | success
  /-- `process::exit` with what was printed to standard error. -/
  | failure (code : Nat) (stderr : String)
  | panicked
deriving DecidableEq

/-- The shell around `dispatch`. -/
def main (k : Crates) (fmt : Formats) (files : Files) (args : List String) (out : ω) : Exit × ω :=
  match dispatch k fmt files args out with
  | (.ok (), out) => (.success, out)
  | (.error (.error e), out) => (.failure 2 e.display, out)
  | (.error .panic, out) => (.panicked, out)

/-! ## Listings -/

/-- The lines `list` prints for the entries `ms`. -/
def rows (ms : List CentralEntry) : List String :=
  ms.map fun m => row m.uncompressedSize m.method m.name

/-- What `list` prints for the entries `ms`. -/
def listing (ms : List CentralEntry) : List Char := (rows ms).flatMap terminated

/-- `by_index` opens the entry. -/
def Opens (k : Crates) (x : ArchiveImage) (m : CentralEntry) : Prop :=
  ∃ f, x.opened k m none = .ok f

/-- How listing the entries `ms` to `out` can end, and how it leaves the writer. -/
inductive Listed (k : Crates) (x : ArchiveImage) (out : ω) (ms : List CentralEntry) :
    Res CliError Unit → ω → Prop
  /-- The writer took all the lines. -/
  | complete {out' : ω} (opens : ∀ m ∈ ms, Opens k x m)
      (written : writeLines (rows ms) out = (.ok (), out')) : Listed k x out ms (.ok ()) out'
  /-- The writer took the lines up to the first entry that does not open, which ends the
  listing. -/
  | refused {shown later : List CentralEntry} {m : CentralEntry} {e : Fault ZipCoreError} {out' : ω}
      (split : ms = shown ++ m :: later) (opens : ∀ m ∈ shown, Opens k x m)
      (refusal : x.opened k m none = .error e)
      (written : writeLines (rows shown) out = (.ok (), out')) :
      Listed k x out ms (.error (zipFault e)) out'
  /-- The writer gave up within the lines of the entries shown. -/
  | cut {shown later : List CentralEntry} {e : IoError} {out' : ω} (split : ms = shown ++ later)
      (opens : ∀ m ∈ shown, Opens k x m) (failed : writeLines (rows shown) out = (.error e, out')) :
      Listed k x out ms (Res.err (.io e)) out'

theorem writeLines_cons_ok {line : String} {lines : List String} {out out' : ω}
    (h : writeAll (terminated line) out = (.ok (), out')) :
    writeLines (line :: lines) out = writeLines lines out' := by
  rw [writeLines, writeln, h]

theorem Listed.cons {x : ArchiveImage} {out out' : ω} {m : CentralEntry} {ms : List CentralEntry}
    {r : Res CliError Unit} {last : ω} (hopens : Opens k x m)
    (hline : writeAll (terminated (row m.uncompressedSize m.method m.name)) out = (.ok (), out'))
    (h : Listed k x out' ms r last) : Listed k x out (m :: ms) r last := by
  have hrows (shown : List CentralEntry) :
      writeLines (rows (m :: shown)) out = writeLines (rows shown) out' := writeLines_cons_ok hline
  cases h with
  | complete opens written =>
    exact .complete (List.forall_mem_cons.2 ⟨hopens, opens⟩) ((hrows ms).trans written)
  | @refused shown later m' e _ split opens refusal written =>
    exact .refused (congrArg (m :: ·) split) (List.forall_mem_cons.2 ⟨hopens, opens⟩) refusal
      ((hrows shown).trans written)
  | @cut shown later e _ split opens failed =>
    exact .cut (congrArg (m :: ·) split) (List.forall_mem_cons.2 ⟨hopens, opens⟩)
      ((hrows shown).trans failed)

/-- The loop from index `i` on: each entry is opened through the reader the one before it
handed back, which no entry can tell from a fresh one. -/
theorem listLoop_listed {x : ArchiveImage} {ms : List CentralEntry} {i : Nat} {a : ZipArchive}
    (himage : a.image = x) (hms : x.entries.drop i = ms) (out : ω) :
    Listed k x out ms (listLoop k (List.range' i ms.length) a out).1
      (listLoop k (List.range' i ms.length) a out).2 := by
  induction ms generalizing i a out with
  | nil => exact .complete (fun m hm => absurd hm List.not_mem_nil) rfl
  | cons m ms ih =>
    have hentry : a.entries[i]? = some m := by
      have hget : (x.entries.drop i)[0]? = some m := by rw [hms]; rfl
      rw [List.getElem?_drop, Nat.add_zero] at hget
      rw [← himage] at hget
      exact hget
    have hrest : x.entries.drop (i + 1) = ms := by
      rw [← List.drop_drop, hms]
      rfl
    have hview : (a.byIndex i : Opened k).view = x.opened k m none := by
      rw [ZipArchive.byIndex, hentry, ← himage]
      exact view_open a m
    have hthrough := byIndex_through (k := k) a i
    rw [List.length_cons, List.range'_succ, listLoop]
    rcases hopen : (a.byIndex i : Opened k) with ⟨e, reader⟩ | f
    · rw [hopen] at hview
      exact Listed.refused (List.nil_append _).symm (fun m hm => absurd hm List.not_mem_nil)
        hview.symm rfl
    · rw [hopen] at hview hthrough
      have hopens : Opens k x m := ⟨_, hview.symm⟩
      obtain ⟨hfound, -⟩ := ZipArchive.of_byIndex hopen
      obtain rfl : f.entry = m := Option.some.inj (hfound.symm.trans hentry)
      have hrow : row f.size f.compression f.name =
          row f.entry.uncompressedSize f.entry.method f.entry.name := rfl
      dsimp only
      rw [writeln, hrow]
      rcases hw : writeAll (terminated (row f.entry.uncompressedSize f.entry.method f.entry.name))
          out with ⟨e | ⟨⟩, out'⟩
      · have hfailed : writeLines (rows [f.entry]) out = (.error e, out') := by
          rw [rows, List.map_singleton, writeLines, writeln, hw]
        exact .cut (List.singleton_append).symm (fun m hm => List.mem_singleton.1 hm ▸ hopens)
          hfailed
      · have hbytes : (ZipFile.release f).bytes = a.reader.bytes :=
          bytes_reads_of_through hthrough []
        have himage' : ZipArchive.image { a with reader := f.release } = x := by
          rw [← himage, ZipArchive.image, ZipArchive.image, hbytes]
        exact (ih himage' hrest out').cons hopens hw

variable [LawfulWrite IoError ω]

/-- What has arrived when a listing ends with `r`: all the lines, those of the entries in front of
the first that does not open, or a front of such lines. -/
structure ListingArrived (k : Crates) (x : ArchiveImage) (before : List Char)
    (ms : List CentralEntry) (r : Res CliError Unit) (text : List Char) : Prop where
  complete : r = .ok () → (∀ m ∈ ms, Opens k x m) ∧ text = before ++ listing ms
  refused : ∀ e, r = .error (zipFault e) → ∃ shown m later, ms = shown ++ m :: later ∧
    (∀ m ∈ shown, Opens k x m) ∧ x.opened k m none = .error e ∧ text = before ++ listing shown
  cut : ∀ e, r = Res.err (.io e) → ∃ shown later front, ms = shown ++ later ∧
    (∀ m ∈ shown, Opens k x m) ∧ front <+: listing shown ∧ text = before ++ front

theorem zipFault_ne_io (e : Fault ZipCoreError) (e' : IoError) :
    zipFault e ≠ .error (.io e') := by
  cases e <;> nofun

theorem zipFault_injective : Function.Injective zipFault := by
  intro e e' h
  cases e <;> cases e' <;> cases h <;> rfl

theorem Listed.arrived {x : ArchiveImage} {out last : ω} {ms : List CentralEntry}
    {r : Res CliError Unit} (h : Listed k x out ms r last) :
    ListingArrived k x (ZipForensic.arrived out) ms r (ZipForensic.arrived last) := by
  cases h with
  | complete opens written =>
    have htext := writeLines_ok (congrArg Prod.fst written)
    rw [written] at htext
    exact ⟨fun _ => ⟨opens, htext⟩, nofun, nofun⟩
  | @refused shown later m e _ split opens refusal written =>
    have htext := writeLines_ok (congrArg Prod.fst written)
    rw [written] at htext
    refine ⟨nofun, fun e' he => ?_, fun e' he => ?_⟩
    · obtain rfl : e = e' := zipFault_injective (Except.error.inj he)
      exact ⟨shown, m, later, split, opens, refusal, htext⟩
    · exact absurd (Except.error.inj he) (zipFault_ne_io e e')
  | @cut shown later e _ split opens failed =>
    obtain ⟨front, hfront, htext⟩ := writeLines_error (congrArg Prod.fst failed)
    rw [failed] at htext
    refine ⟨nofun, fun e' he => ?_, fun _ _ => ⟨shown, later, front, split, opens, hfront, htext⟩⟩
    exact absurd (Except.error.inj he).symm (zipFault_ne_io e' e)

/-- `zip4n6 list` on an archive: through every writer, a line for each entry in
central-directory order, up to the first that `by_index` refuses. The lines are written one
after the other, and an error of the writer, and nothing else, cuts them. -/
theorem dispatch_list (fmt : Formats) (files : Files) (args : List String) {path : String}
    {F : Bytes} {a : ZipArchive} (hcommand : args[1]? = some "list") (hpath : args[2]? = some path)
    (hfile : files path = .ok F) (hnew : ZipArchive.new ⟨F, 0⟩ = .ok a) (out : ω) :
    Listed k a.image out a.entries (dispatch k fmt files args out).1
        (dispatch k fmt files args out).2 ∧
      ListingArrived k a.image (arrived out) a.entries (dispatch k fmt files args out).1
        (arrived (dispatch k fmt files args out).2) := by
  have hlist : dispatch k fmt files args out =
      listLoop k (List.range' 0 a.entries.length) a out := by
    rw [dispatch, hcommand, hpath]
    show list k files path out = _
    rw [list, hfile]
    dsimp only
    rw [hnew]
    dsimp only
    rw [List.range_eq_range']
  have hall : a.image.entries.drop 0 = a.entries := rfl
  have hlisted := listLoop_listed (k := k) (a := a) rfl hall out
  rw [hlist]
  exact ⟨hlisted, hlisted.arrived⟩

/-- Severities by name, and every character but NUL, quotes and line ends as it is. -/
def sampleFormats : Formats where
  severity
    | .low => "Low"
    | .medium => "Medium"
    | .high => "High"
  oneLine_severity s := by
    cases s
    all_goals decide
  shown _ := true

def sampleFiles (first : UInt8) : Files := fun _ => .ok (pairArchive first)

/-- A page with room for so many characters. -/
def samplePage (room : Nat) : Page IoError := ⟨[], room, .other "no room"⟩

/-- An archive of two members, listed in full; on a page that ends in the second line, the
listing does. -/
theorem pairArchive_listed :
    ∃ a, ZipArchive.new ⟨pairArchive 0x61, 0⟩ = .ok a ∧
      (∀ room, Listed pairCrates a.image (samplePage room) a.entries
        (dispatch pairCrates sampleFormats (sampleFiles 0x61) ["zip4n6", "list", "m.zip"]
          (samplePage room)).1
        (dispatch pairCrates sampleFormats (sampleFiles 0x61) ["zip4n6", "list", "m.zip"]
          (samplePage room)).2) ∧
      (dispatch pairCrates sampleFormats (sampleFiles 0x61) ["zip4n6", "list", "m.zip"]
        (samplePage 60)) =
          (.ok (), ⟨"         3  Stored  d/a\n       300  Xz  b\n".toList, 18, .other "no room"⟩) ∧
      (dispatch pairCrates sampleFormats (sampleFiles 0x61) ["zip4n6", "list", "m.zip"]
        (samplePage 30)) =
          (Res.err (.io (.other "no room")),
            ⟨"         3  Stored  d/a\n      ".toList, 0, .other "no room"⟩) := by
  have hdir : directoryOf (pairArchive 0x61) = .ok pairDirectory := by decide +kernel
  obtain ⟨pos, hnew⟩ := new_of_directoryOf hdir 0
  refine ⟨_, hnew, fun room => ?_, ?_, ?_⟩
  · exact (dispatch_list sampleFormats (sampleFiles 0x61) ["zip4n6", "list", "m.zip"] rfl rfl rfl hnew
      (samplePage room)).1
  · decide +kernel
  · decide +kernel

/-! ## Reports -/

theorem oneLine_code (kind : AnomalyKind) : OneLine kind.code := by
  unfold AnomalyKind.code
  split
  all_goals decide

/-- What `audit` prints for its findings. -/
def report (fmt : Formats) (found : List Anomaly) : List Char :=
  (reportLines fmt found).flatMap terminated

/-- The clean message stands for an audit without findings only: a report of findings
starts with a bracket. -/
theorem report_eq_clean_iff (fmt : Formats) (found : List Anomaly) :
    report fmt found = terminated "no anomalies found" ↔ found = [] := by
  constructor
  · intro h
    rcases found with - | ⟨x, xs⟩
    · rfl
    · have hhead := congrArg List.head? h
      rw [report, reportLines, if_neg (List.cons_ne_nil x xs), List.map_cons, List.flatMap_cons,
        terminated, reportLine] at hhead
      simp [terminated] at hhead
  · rintro rfl
    rfl

/-- A report has a line for each finding, in order, unless a name broke one; then the
findings say so. -/
theorem splitLines_report (fmt : Formats) {reader : Source} {found : List Anomaly}
    (h : auditReader k reader = .ok found) (hfound : ∀ x ∈ found, x.kind.mayBreak = false) :
    splitLines (report fmt found) = (reportLines fmt found).map String.toList := by
  refine splitLines_terminated fun line hline => ?_
  rw [reportLines] at hline
  split_ifs at hline with hnone
  · rw [List.mem_singleton.1 hline]
    decide
  · obtain ⟨x, hx, rfl⟩ := List.mem_map.1 hline
    have hcode : x.code = x.kind.code := congrArg Anomaly.code (eq_new_of_mem_auditReader h x hx)
    show OneLine (reportLine fmt x)
    simp only [reportLine, oneLine_append, hcode]
    exact ⟨⟨⟨⟨⟨by decide, fmt.oneLine_severity _⟩, by decide⟩, oneLine_code _⟩, by decide⟩,
      oneLine_of_mem_auditReader fmt h hfound x hx⟩

/-- `zip4n6 audit` on a file whose audit returns: it prints the report of the findings line by
line, and if the writer gives up in one of them, the front of it that the writer took. The
report is the clean message exactly if nothing was found, and has a line for each finding
unless one of them is about a control character in a name or about two different names. -/
theorem dispatch_audit (fmt : Formats) (files : Files) (args : List String) {path : String}
    {F : Bytes} {found : List Anomaly} (hcommand : args[1]? = some "audit")
    (hpath : args[2]? = some path) (hfile : files path = .ok F)
    (haudit : auditReader k ⟨F, 0⟩ = .ok found) (out : ω) :
    ((writeLines (reportLines fmt found) out).1 = .ok () ∧
        (dispatch k fmt files args out).1 = .ok () ∧
        arrived (dispatch k fmt files args out).2 = arrived out ++ report fmt found ∨
      ∃ e front, (writeLines (reportLines fmt found) out).1 = .error e ∧
        (dispatch k fmt files args out).1 = Res.err (.io e) ∧ front <+: report fmt found ∧
        arrived (dispatch k fmt files args out).2 = arrived out ++ front) ∧
    (report fmt found = terminated "no anomalies found" ↔ found = []) ∧
    ((∀ x ∈ found, x.kind.mayBreak = false) →
      splitLines (report fmt found) = (reportLines fmt found).map String.toList) := by
  refine ⟨?_, report_eq_clean_iff fmt found, splitLines_report fmt haudit⟩
  have hok (h : (writeLines (reportLines fmt found) out).1 = .ok ()) := writeLines_ok h
  have herror {e : IoError} (h : (writeLines (reportLines fmt found) out).1 = .error e) :=
    writeLines_error h
  have hrun : dispatch k fmt files args out = audit k fmt files path out := by
    rw [dispatch, hcommand, hpath]
    rfl
  rw [hrun, audit, auditPath, hfile]
  dsimp only
  rw [haudit]
  dsimp only
  rcases hw : writeLines (reportLines fmt found) out with ⟨e | ⟨⟩, out'⟩
  · rw [hw] at herror
    obtain ⟨front, hfront, harrived⟩ := herror rfl
    exact .inr ⟨e, front, rfl, rfl, hfront, harrived⟩
  · rw [hw] at hok
    exact .inl ⟨rfl, rfl, hok rfl⟩

/-- What is said of the first member with another first byte. -/
def corruptLine : String :=
  "[High] ZIP-CRC-MISMATCH: entry 0 (d/a): decoded data CRC-32 disagrees with the recorded " ++
    "value — consistent with corruption or tampering of the entry data"

/-- `zip4n6 audit` on the archive of two members with this first byte. -/
def auditPair (first : UInt8) (room : Nat) : Res CliError Unit × Page IoError :=
  dispatch pairCrates sampleFormats (sampleFiles first) ["zip4n6", "audit", "m.zip"]
    (samplePage room)

/-- The reports on the archive of two members, with its first member intact and corrupt, on a page
with room for them; on a shorter one they are cut. -/
theorem pairArchive_reported :
    ((auditPair 0x61 200).1 = .ok () ∧
      arrived (auditPair 0x61 200).2 = terminated "no anomalies found") ∧
    ((auditPair 0x7A 200).1 = .ok () ∧
      arrived (auditPair 0x7A 200).2 = terminated corruptLine) ∧
    arrived (auditPair 0x61 10).2 <+: terminated "no anomalies found" := by
  have haudit : auditReader pairCrates ⟨pairArchive 0x61, 0⟩ = .ok [] :=
    pairArchive_audit (by decide +kernel) (by decide +kernel) (by decide +kernel)
  have hcorrupt : auditReader pairCrates ⟨pairArchive 0x7A, 0⟩ =
      .ok [.new (.crcMismatch 0 "d/a")] :=
    pairArchive_audit (by decide +kernel) (by decide +kernel) (by decide +kernel)
  refine ⟨?_, ?_, ?_⟩
  · obtain ⟨hwritten, -, -⟩ := dispatch_audit sampleFormats (sampleFiles 0x61)
      ["zip4n6", "audit", "m.zip"] rfl rfl rfl haudit (samplePage 200)
    have hreport : arrived (samplePage 200) ++ report sampleFormats [] =
        terminated "no anomalies found" := by decide +kernel
    have hroom : (writeLines (reportLines sampleFormats []) (samplePage 200)).1 = .ok () := by
      decide +kernel
    rcases hwritten with ⟨-, hend, harrived⟩ | ⟨e, front, hfailed, -⟩
    · rw [auditPair, hend, harrived, hreport]
      exact ⟨rfl, rfl⟩
    · cases hroom.symm.trans hfailed
  · obtain ⟨hwritten, -, -⟩ := dispatch_audit sampleFormats (sampleFiles 0x7A)
      ["zip4n6", "audit", "m.zip"] rfl rfl rfl hcorrupt (samplePage 200)
    have hreport : arrived (samplePage 200) ++ report sampleFormats [.new (.crcMismatch 0 "d/a")] =
        terminated corruptLine := by decide +kernel
    have hroom : (writeLines (reportLines sampleFormats [.new (.crcMismatch 0 "d/a")])
        (samplePage 200)).1 = .ok () := by decide +kernel
    rcases hwritten with ⟨-, hend, harrived⟩ | ⟨e, front, hfailed, -⟩
    · rw [auditPair, hend, harrived, hreport]
      exact ⟨rfl, rfl⟩
    · cases hroom.symm.trans hfailed
  · obtain ⟨hwritten, -, -⟩ := dispatch_audit sampleFormats (sampleFiles 0x61)
      ["zip4n6", "audit", "m.zip"] rfl rfl rfl haudit (samplePage 10)
    rcases hwritten with ⟨-, -, harrived⟩ | ⟨e, front, -, -, hfront, harrived⟩
    · rw [auditPair, harrived]
      exact List.prefix_refl _
    · rw [auditPair, harrived]
      exact hfront

end Writing

end Cli

end ZipForensic
