import ExprMachine.Proofs.Cli.Directory
import ExprMachine.Proofs.Codec.Compiled

/-!
# Running a package file is running its source

There are two ways to run a program: from its source file, or from the package file that was written
for it. They share the machine and what is printed, but the second goes through bytes in a file and
back. The package of a program survives that, and what a package prints does not depend on where it
came from.

A source that cannot be read or compiled has no package file: asking for one fails in the same way
as running it, and nothing is written.
-/

namespace ExprMachine

/-- The package of a source text. -/
def compileSource (source : String) : Except EvalError Package := do
  let program ← parseSource source
  compileProgram program

namespace Cli

/-! ## Arguments -/

/-- The options among some arguments. -/
def Options.ofFlags (flags : List String) : Options where
  tokens := flags.contains "--tokens"
  noColor := flags.contains "--no-color"
  pretty := flags.contains "--pretty"
  ast := flags.contains "--ast"
  listing := flags.contains "--bc" || flags.contains "--bytecode"
  stats := flags.contains "--stats"
  emit := flags.contains "--emit"

section Arguments

variable {flags : List String} {file : String}

namespace Command

theorem find?_of_flags (hflags : ∀ flag ∈ flags, flag.startsWith "-" = true) :
    flags.find? (fun arg => !arg.startsWith "-") = none :=
  List.find?_eq_none.mpr fun flag hflag => by simp [hflags flag hflag]

theorem no_help (hhelp : "--help" ∉ flags ∧ "-h" ∉ flags) :
    (flags.contains "--help" || flags.contains "-h") = false := by
  simp [hhelp.1, hhelp.2]

/-- Arguments in front of a file that are all options, but none asks for help. -/
theorem ofArgs_file (hflags : ∀ flag ∈ flags, flag.startsWith "-" = true)
    (hhelp : "--help" ∉ flags ∧ "-h" ∉ flags) (hfile : file.startsWith "-" = false) :
    ofArgs (flags ++ [file]) = .file (.ofFlags flags) file := by
  -- an option is none of the files, so it can only be among the arguments in front
  have hcontains : ∀ option : String, "-".toList <+: option.toList →
      (flags ++ [file]).contains option = flags.contains option := by
    intro option hoption
    have hne : option ≠ file := by
      rintro rfl
      rw [String.startsWith_string_iff.mpr hoption] at hfile
      cases hfile
    rw [List.contains_append, List.contains_cons, beq_false_of_ne hne]
    simp
  have hfind : (flags ++ [file]).find? (fun arg => !arg.startsWith "-") = some file := by
    rw [List.find?_append, find?_of_flags hflags, Option.none_or,
      List.find?_cons_of_pos (by simp [hfile])]
  unfold ofArgs
  rw [hcontains "--help" (by decide), hcontains "-h" (by decide), hcontains "--tokens" (by decide),
    hcontains "--no-color" (by decide), hcontains "--pretty" (by decide),
    hcontains "--ast" (by decide), hcontains "--bc" (by decide),
    hcontains "--bytecode" (by decide), hcontains "--stats" (by decide),
    hcontains "--emit" (by decide), hfind, no_help hhelp]
  rfl

/-- Arguments that are all options, but none asks for help. -/
theorem ofArgs_incomplete (hflags : ∀ flag ∈ flags, flag.startsWith "-" = true)
    (hhelp : "--help" ∉ flags ∧ "-h" ∉ flags) (hsome : flags ≠ []) :
    ofArgs flags = .incomplete := by
  unfold ofArgs
  rw [no_help hhelp, find?_of_flags hflags, List.isEmpty_eq_false_iff.mpr hsome]
  rfl

end Command

/-- Views of a package are all that these options ask for, and no help. -/
theorem Options.ofFlags_views (hflags : ∀ flag ∈ flags, flag = "--bc" ∨ flag = "--stats") :
    (ofFlags flags).tokens = false ∧ (ofFlags flags).ast = false ∧ (ofFlags flags).emit = false ∧
      ("--help" ∉ flags ∧ "-h" ∉ flags) ∧ ∀ flag ∈ flags, flag.startsWith "-" = true := by
  have hother : ∀ option : String, option ≠ "--bc" → option ≠ "--stats" → option ∉ flags := by
    intro option hbc hstats hmem
    rcases hflags option hmem with heq | heq
    · exact hbc heq
    · exact hstats heq
  refine ⟨?_, ?_, ?_, ⟨hother _ (by decide) (by decide), hother _ (by decide) (by decide)⟩, ?_⟩
  · simpa [ofFlags] using hother "--tokens" (by decide) (by decide)
  · simpa [ofFlags] using hother "--ast" (by decide) (by decide)
  · simpa [ofFlags] using hother "--emit" (by decide) (by decide)
  · intro flag hflag
    rcases hflags flag hflag with rfl | rfl
    · exact String.startsWith_string_iff.mpr (by decide)
    · exact String.startsWith_string_iff.mpr (by decide)

theorem Action.ofArgs_views (hflags : ∀ flag ∈ flags, flag = "--bc" ∨ flag = "--stats")
    (hfile : file.startsWith "-" = false) :
    ofArgs (flags ++ [file]) = processFile (.ofFlags flags) file := by
  obtain ⟨-, -, -, hhelp, hdash⟩ := Options.ofFlags_views hflags
  rw [ofArgs, Command.ofArgs_file hdash hhelp hfile]

theorem Action.ofArgs_emit (hfile : file.startsWith "-" = false) :
    ofArgs ["--emit", file] = processFile (.ofFlags ["--emit"]) file := by
  have hdash : ∀ flag ∈ ["--emit"], flag.startsWith "-" = true :=
    List.forall_mem_singleton.mpr (String.startsWith_string_iff.mpr (by decide))
  rw [ofArgs, ← List.singleton_append, Command.ofArgs_file hdash (by decide) hfile]

end Arguments

/-! ## Sources and packages -/

section Source

variable {options : Options} {path source : String} {package : Package}

/-- A source is compiled, unless only a view of it was asked for; then its package is written or
run. -/
theorem processSource_eq (htokens : options.tokens = false) (hast : options.ast = false)
    (path source : String) :
    processSource options path source =
      match compileSource source with
      | .error error => .finish (.failure error.message)
      | .ok package =>
        if options.emit then emitPackage path package
        else .finish (runPackage options package) := by
  unfold processSource compileSource
  rw [if_neg (by simp [htokens])]
  rcases parseSource source with error | program
  · rfl
  dsimp only [bind, Except.bind]
  rcases compileProgram program with error | package
  · exact if_neg (by simp [hast])
  · exact if_neg (by simp [hast])

/-- The package of a source has a file, and the file is read as the package. -/
theorem stored_of_compileSource (h : compileSource source = .ok package) :
    ∃ bytes, package.toBytes = .ok bytes ∧ Package.ofBytes bytes = .ok package := by
  unfold compileSource at h
  rcases hparse : parseSource source with error | program
  · rw [hparse] at h
    cases h
  rw [hparse] at h
  dsimp only [bind, Except.bind] at h
  unfold compileProgram at h
  split at h
  · rename_i hcompile
    cases h
    exact Program.stored_of_compile hcompile
  · cases h

end Source

namespace Directory

variable {dir : Directory} {path source : String} {options : Options} {package : Package}
variable (stdin : List UInt8)

theorem perform_read (path : String) (next : Except String (List UInt8) → Action) :
    perform stdin dir (.read path next)
      = perform stdin dir (next ((dir.read path).mapError FileError.message)) := rfl

theorem perform_write (path : String) (bytes : List UInt8) (next : Except String Unit → Action) :
    perform stdin dir (.write path bytes next) =
      match dir.write path bytes with
      | .error error => perform stdin dir (next (.error error.message))
      | .ok after => perform stdin after (next (.ok ())) := by
  rcases hwrite : dir.write path bytes with error | after
  · simp only [perform, hwrite]
  · simp only [perform, hwrite]

/-- A package file is a package. -/
theorem perform_package {bytes : List UInt8} (hext : Path.extension? path = some "apec")
    (hread : dir.read path = .ok bytes) (hbytes : Package.ofBytes bytes = .ok package) :
    perform stdin dir (processFile options path) = (dir, runPackage options package) := by
  unfold processFile
  rw [hext]
  show perform stdin dir (.read path _) = _
  rw [perform_read, hread]
  dsimp only [Except.mapError]
  rw [hbytes]
  rfl

section SourceFile

variable (hext : Path.extension? path = some "ape") (hread : dir.read path = .ok (Text.utf8 source))
variable (htokens : options.tokens = false) (hast : options.ast = false)
include hext hread

/-- A source file is a source text. -/
theorem perform_source :
    perform stdin dir (processFile options path)
      = perform stdin dir (processSource options path source) := by
  unfold processFile
  rw [hext]
  show perform stdin dir (.read path _) = _
  rw [perform_read, hread]
  dsimp only [Except.mapError, Except.bind]
  rw [Text.ofUtf8?_utf8]
  rfl

/-- A path that was read has a last part, which its extension belongs to. With another extension the
path is one to another file. -/
theorem target_of_read :
    Path.extension? (Path.withExtension path "apec") = some "apec" ∧
      (Path.withExtension path "apec").startsWith "-" = path.startsWith "-" ∧
      dir.resolve path ≠ dir.resolve (Path.withExtension path "apec") := by
  obtain ⟨place, hresolve, -⟩ := read_eq_ok_iff.mp hread
  obtain ⟨name, hname, ⟨front, hsplit⟩, -⟩ := split_of_resolve hresolve
  have hnew : "apec" ≠ "" := by decide
  have hdot : '.' ∉ "apec".toList := by decide
  have hslash : '/' ∉ "apec".toList := by decide
  obtain ⟨-, -, hextension, -⟩ := Path.extension?_withExtension hsplit hname hext hnew hdot hslash
  exact ⟨hextension, Path.startsWith_withExtension hsplit hname hext "apec",
    resolve_withExtension_ne hresolve hext hnew hdot hslash (by decide)⟩

include htokens hast

/-- What is done with a source that has no package does not depend on what was asked for. -/
theorem perform_of_error {error : EvalError} (h : compileSource source = .error error) :
    perform stdin dir (processFile options path) = (dir, .failure error.message) := by
  rw [perform_source stdin hext hread, processSource_eq htokens hast, h]
  rfl

/-- What running a source that has a package does. -/
theorem perform_run_of_ok (hemit : options.emit = false) (h : compileSource source = .ok package) :
    perform stdin dir (processFile options path) = (dir, runPackage options package) := by
  rw [perform_source stdin hext hread, processSource_eq htokens hast, h]
  dsimp only
  rw [if_neg (by simp [hemit])]
  rfl

/-- What asking for a package file does with a source that has a package. -/
theorem perform_emit_of_ok {bytes : List UInt8} (hemit : options.emit = true)
    (h : compileSource source = .ok package) (hbytes : package.toBytes = .ok bytes) :
    perform stdin dir (processFile options path) =
      match dir.write (Path.withExtension path "apec") bytes with
      | .error error =>
        (dir, .failure ("Failed to write '" ++ Path.withExtension path "apec" ++ "': "
          ++ error.message))
      | .ok after => (after, .success ("wrote " ++ Path.withExtension path "apec" ++ "\n")) := by
  rw [perform_source stdin hext hread, processSource_eq htokens hast, h]
  dsimp only
  rw [if_pos hemit, emitPackage, hbytes]
  dsimp only
  rw [perform_write]
  rcases dir.write (Path.withExtension path "apec") bytes with error | after
  · rfl
  · rfl

end SourceFile

/-- **A package that was written for a source** is run as the source was. -/
theorem perform_of_write {flags : List String} {bytes : List UInt8} {after : Directory}
    (hext : Path.extension? path = some "ape") (hread : dir.read path = .ok (Text.utf8 source))
    (hpath : path.startsWith "-" = false)
    (hflags : ∀ flag ∈ flags, flag = "--bc" ∨ flag = "--stats")
    (hcompile : compileSource source = .ok package) (hbytes : Package.ofBytes bytes = .ok package)
    (hwrite : dir.write (Path.withExtension path "apec") bytes = .ok after) :
    (perform stdin after (.ofArgs (flags ++ [Path.withExtension path "apec"]))).2
      = (perform stdin dir (.ofArgs (flags ++ [path]))).2 := by
  obtain ⟨htokens, hast, hemit, -, -⟩ := Options.ofFlags_views hflags
  obtain ⟨hextension, htarget, -⟩ := target_of_read hext hread
  rw [Action.ofArgs_views hflags hpath, Action.ofArgs_views hflags (htarget.trans hpath),
    perform_package stdin hextension (read_of_write hwrite) hbytes,
    perform_run_of_ok stdin hext hread htokens hast hemit hcompile]

/-- What the program does when its arguments are all options, but none asks for help. -/
theorem perform_incomplete {flags : List String}
    (hflags : ∀ flag ∈ flags, flag.startsWith "-" = true)
    (hhelp : "--help" ∉ flags ∧ "-h" ∉ flags) (hsome : flags ≠ []) :
    perform stdin dir (.ofArgs flags) = (dir, { stdout := usage, code := 1 }) := by
  unfold Action.ofArgs
  rw [Command.ofArgs_incomplete hflags hhelp hsome]
  rfl

/-- A path that is taken for an option is no file, whatever is asked for. -/
theorem perform_option (hext : Path.extension? path = some "ape")
    (hpath : path.startsWith "-" = true) :
    perform stdin dir (.ofArgs ["--emit", path]) = (dir, { stdout := usage, code := 1 }) ∧
      perform stdin dir (.ofArgs [path]) = (dir, { stdout := usage, code := 1 }) := by
  -- what asks for help has no extension
  have hlong : "--help" ≠ path := by
    rintro rfl
    exact absurd hext (by cbv; simp)
  have hshort : "-h" ≠ path := by
    rintro rfl
    exact absurd hext (by cbv; simp)
  have hdash : ∀ flag ∈ [path], flag.startsWith "-" = true := List.forall_mem_singleton.mpr hpath
  have hemit : "--emit".startsWith "-" = true := String.startsWith_string_iff.mpr (by decide)
  constructor
  · exact perform_incomplete stdin (List.forall_mem_cons.mpr ⟨hemit, hdash⟩)
      (by simp [hlong, hshort]) (List.cons_ne_nil _ _)
  · exact perform_incomplete stdin hdash (by simp [hlong, hshort]) (List.cons_ne_nil _ _)

/--
**A package file runs as its source.**

Let a file with the extension `ape` hold a source text, and let a package file be asked for. If that
succeeds, a file with the extension `apec` has been written next to the source, which is still
there, and the program does the same with both, whatever views of the package are asked for. If the
text does not parse or compile, nothing is written, and the program ends as it does when the source
is run. A text that compiles always has a package file, if there is room for one.
-/
theorem perform_emit {flags : List String}
    (hext : Path.extension? path = some "ape") (hread : dir.read path = .ok (Text.utf8 source))
    (hflags : ∀ flag ∈ flags, flag = "--bc" ∨ flag = "--stats") :
    let target := Path.withExtension path "apec"
    let emitted := perform stdin dir (.ofArgs ["--emit", path])
    (emitted.2.code = 0 →
      (∃ bytes, dir.write target bytes = .ok emitted.1 ∧ emitted.1.read target = .ok bytes)
        ∧ emitted.1.read path = .ok (Text.utf8 source)
        ∧ (perform stdin emitted.1 (.ofArgs (flags ++ [target]))).2
          = (perform stdin dir (.ofArgs (flags ++ [path]))).2)
      ∧ (∀ error, compileSource source = .error error →
        emitted = (dir, (perform stdin dir (.ofArgs [path])).2))
      ∧ ∀ package, compileSource source = .ok package → path.startsWith "-" = false →
        ∃ bytes, package.toBytes = .ok bytes ∧ ∀ after, dir.write target bytes = .ok after →
          emitted = (after, .success ("wrote " ++ target ++ "\n")) := by
  intro target emitted
  rcases hpath : path.startsWith "-" with _ | _
  case true =>
    -- a path that begins with a dash is taken for an option, with or without `--emit`
    obtain ⟨hoption, hrun⟩ := @perform_option dir path stdin hext hpath
    have hemitted : emitted = (dir, { stdout := usage, code := 1 }) := hoption
    refine ⟨fun h => ?_, fun _ _ => ?_, fun _ _ h => nomatch h⟩
    · rw [hemitted] at h
      cases h
    · rw [hrun, hemitted]
  case false =>
    have hemitted : emitted = perform stdin dir (processFile (.ofFlags ["--emit"]) path) := by
      rw [← Action.ofArgs_emit hpath]
    rcases hcompile : compileSource source with error | package
    · have hplain : perform stdin dir (.ofArgs [path]) = (dir, .failure error.message) := by
        rw [← List.nil_append [path], Action.ofArgs_views (fun _ h => absurd h List.not_mem_nil)
          hpath, perform_of_error stdin hext hread rfl rfl hcompile]
      rw [perform_of_error stdin hext hread rfl rfl hcompile] at hemitted
      refine ⟨fun h => ?_, fun _ _ => ?_, fun _ h => nomatch h⟩
      · rw [hemitted] at h
        cases h
      · rw [hplain, hemitted]
    · obtain ⟨bytes, hbytes, hpackage⟩ := stored_of_compileSource hcompile
      have htarget : target = Path.withExtension path "apec" := rfl
      rw [perform_emit_of_ok stdin hext hread rfl rfl rfl hcompile hbytes, ← htarget] at hemitted
      refine ⟨fun h => ?_, fun _ h => (nomatch h), fun package' h _ => ?_⟩
      · rcases hwrite : dir.write target bytes with error | after
        · rw [hemitted, hwrite] at h
          cases h
        · -- the target has another name than the source, which is still there
          rw [hwrite] at hemitted
          have hkept : after.read path = .ok (Text.utf8 source) :=
            read_of_write_other hwrite hread (target_of_read hext hread).2.2
          rw [hemitted]
          exact ⟨⟨bytes, hwrite, read_of_write hwrite⟩, hkept,
            perform_of_write stdin hext hread hpath hflags hcompile hpackage hwrite⟩
      · cases h
        refine ⟨bytes, hbytes, fun after hwrite => ?_⟩
        rw [hemitted, hwrite]

/-- A quotient is written, in the folder where it was, and its statistics and its value are the same
from either file. -/
theorem perform_emit_quotient :
    let dir : Directory := [("work", .folder), ("work/f.ape", .file (Text.utf8 "7/2"))]
    let emitted := perform [] dir (.ofArgs ["--emit", "work/f.ape"])
    emitted.2 = .success "wrote work/f.apec\n" ∧
      (perform [] emitted.1 (.ofArgs ["--stats", "work/f.apec"])).2
        = (perform [] dir (.ofArgs ["--stats", "work/f.ape"])).2 := by
  intro dir emitted
  have hext : Path.extension? "work/f.ape" = some "ape" := by cbv
  have hread : dir.read "work/f.ape" = .ok (Text.utf8 "7/2") := by cbv
  have hcompile : compileSource "7/2" = .ok ⟨#[0, 0, 0, 0, 0, 1, 4], #[.int 7, .int 2]⟩ := by cbv
  have htarget : Path.withExtension "work/f.ape" "apec" = "work/f.apec" := by cbv
  have hwrite : ∀ bytes,
      dir.write "work/f.apec" bytes = .ok (dir ++ [("work/f.apec", .file bytes)]) := by
    intro bytes
    cbv
  obtain ⟨hsame, -, hwritten⟩ :=
    @perform_emit dir "work/f.ape" "7/2" [] ["--stats"] hext hread (by simp)
  rw [htarget] at hsame hwritten
  obtain ⟨bytes, -, hemitted⟩ := hwritten _ hcompile (by cbv)
  have hreport := hemitted _ (hwrite bytes)
  have hcode : (perform [] dir (.ofArgs ["--emit", "work/f.ape"])).2.code = 0 := by
    rw [hreport]
    rfl
  exact ⟨congrArg Prod.snd hreport, (hsame hcode).2.2⟩

end Directory

end Cli

end ExprMachine
