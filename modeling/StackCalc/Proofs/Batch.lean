import StackCalc.CommandLine
import StackCalc.Proofs.Files
import StackCalc.Proofs.Library
import StackCalc.Proofs.Streams

/-!
Runs of the program on files and an expression. Settings, files and expression are stages that
follow one another in one session. The first stage that fails ends the run, and what would come
after it is not looked at.
-/
namespace StackCalc

open Eval

/-! Files that are loaded one after the other. -/

/-- From the session `s` the files load in order; they print the text and leave `t`. -/
inductive FilesLoad (read : FileReader) :
    List String → Session → List UInt8 → Session → Prop where
  | nil (s : Session) : FilesLoad read [] s [] s
  | cons {path source : String} {rest : List String} {s t u : Session}
      {text text' : List UInt8} : read.Holds path source → load source s = .ok () t →
      LoadPrints source s text → FilesLoad read rest t text' u →
      FilesLoad read (path :: rest) s (text ++ text') u

/-- In the session `s` the file cannot be loaded: the message about it, which starts with the path,
what it prints before it fails, and the session that it leaves. -/
inductive FileFails (read : FileReader) (path : String) (s : Session) :
    String → List UInt8 → Session → Prop where
  | denied {reason : String} : read.Denies path reason →
      FileFails read path s (path ++ ": " ++ reason) [] s
  | failed {source : String} {error : EvalError} {text : List UInt8} {t : Session} :
      read.Holds path source → load source s = .error error t → LoadPrints source s text →
      FileFails read path s (path ++ ": " ++ error.message) text t

section Files
variable {read read' : FileReader} {path message : String} {files : List String} {s t u : Session}
  {text text' : List UInt8}

theorem load_or_fails (read : FileReader) (path : String) (s : Session) :
    (∃ source text t, read.Holds path source ∧ load source s = .ok () t ∧
        LoadPrints source s text) ∨
      ∃ message text t, FileFails read path s message text t := by
  rcases read.holds_or_denies path with ⟨source, hr⟩ | ⟨reason, hr⟩
  · obtain ⟨text, hprints⟩ := exists_loadPrints source s
    cases hl : load source s with
    | ok _ t => exact .inl ⟨source, text, t, hr, hl, hprints⟩
    | error error t => exact .inr ⟨_, _, _, .failed hr hl hprints⟩
  · exact .inr ⟨_, _, _, .denied hr⟩

/-- Either all files load, or there is a first one that does not. -/
theorem filesLoad_or_fails (read : FileReader) (files : List String) (s : Session) :
    (∃ text t, FilesLoad read files s text t) ∨
      ∃ earlier path later text t message text' u, files = earlier ++ path :: later ∧
        FilesLoad read earlier s text t ∧ FileFails read path t message text' u := by
  induction files generalizing s with
  | nil => exact .inl ⟨[], s, .nil s⟩
  | cons path rest ih =>
    -- the first file that fails is this one, or it is among those after it
    rcases load_or_fails read path s with ⟨source, text, t, hr, hl, hp⟩ | ⟨message, text, t, hf⟩
    · rcases ih t with ⟨text', u, hrest⟩ |
        ⟨earlier, path', later, text', u, message, text'', v, rfl, he, hf⟩
      · exact .inl ⟨_, u, .cons hr hl hp hrest⟩
      · exact .inr ⟨path :: earlier, path', later, _, u, message, text'', v, rfl,
          .cons hr hl hp he, hf⟩
    · exact .inr ⟨[], path, rest, [], s, message, text, t, rfl, .nil s, hf⟩

theorem FilesLoad.output (h : FilesLoad read files s text t) (ho : s.output.Accepts) :
    t.output = s.output.after text := by
  induction h with
  | nil s => exact (Output.after_nil _).symm
  | @cons path source rest s t u text text' _ hl hp _ ih =>
    have ht : t.output = s.output.after text := by
      have h := output_load hp ho
      rwa [hl] at h
    calc u.output
        = t.output.after text' := ih (ht ▸ ho.after text)
      _ = (s.output.after text).after text' := by rw [ht]
      _ = s.output.after (text ++ text') := Output.after_after ..

theorem FilesLoad.settings (h : FilesLoad read files s text t) : t.settings = s.settings := by
  induction h with
  | nil s => rfl
  | @cons path source rest s t u text text' _ hl _ _ ih =>
    have ht := settings_load source s
    rw [hl] at ht
    exact ih.trans ht

theorem FileFails.output (h : FileFails read path s message text t) (ho : s.output.Accepts) :
    t.output = s.output.after text := by
  cases h with
  | denied _ => exact (Output.after_nil _).symm
  | failed _ hl hp =>
    have ht := output_load hp ho
    rwa [hl] at ht

/-- Other files do not matter. -/
theorem FilesLoad.congr (h : FilesLoad read files s text t)
    (hr : ∀ path ∈ files, read' path = read path) : FilesLoad read' files s text t := by
  induction h with
  | nil s => exact .nil s
  | cons hread hl hp _ ih =>
    obtain ⟨hpath, hrest⟩ := List.forall_mem_cons.1 hr
    exact .cons (hread.congr hpath) hl hp (ih hrest)

theorem FileFails.congr (h : FileFails read path s message text t)
    (hr : read' path = read path) : FileFails read' path s message text t := by
  cases h with
  | denied hread => exact .denied (hread.congr hr)
  | failed hread hl hp => exact .failed (hread.congr hr) hl hp

theorem loadFile_of_fails (h : FileFails read path s message text t) :
    ∃ fault : LoadFault, loadFile read path s = .error fault t ∧ fault.message path = message := by
  cases h with
  | denied hread =>
    obtain ⟨fault, hfault, rfl⟩ := hread.readText
    exact ⟨.unreadable fault, by simp only [loadFile, hfault], rfl⟩
  | @failed source error _ _ hread hl _ =>
    exact ⟨.failed error, by simp only [loadFile, hread.readText, hl], rfl⟩

theorem loadFiles_of_load (h : FilesLoad read files s text t) (rest : List String) :
    CommandLine.loadFiles read (files ++ rest) s = CommandLine.loadFiles read rest t := by
  induction h with
  | nil s => rfl
  | cons hr hl _ _ ih =>
    -- one file is off the list, and the session has gone on
    rw [List.cons_append, CommandLine.loadFiles, ← ih]
    apply bind_of_ok (a := ())
    simp only [loadFile, hr.readText, hl]

theorem loadFiles_of_fails (h : FilesLoad read files s text t)
    (hf : FileFails read path t message text' u) (later : List String) :
    CommandLine.loadFiles read (files ++ path :: later) s = .error message u := by
  obtain ⟨fault, hload, hmessage⟩ := loadFile_of_fails hf
  rw [loadFiles_of_load h, CommandLine.loadFiles]
  apply bind_of_error
  simp only [hload, hmessage]

end Files

/-! Settings. -/

namespace CommandLine

/-- The settings that lie under those of the arguments: the defaults, or those of a settings file
that can be read, makes settings, and allows calls. -/
inductive BaseSettings (host : Host) (o : Options) : Settings → Prop where
  | defaults : o.settingsFile = none → BaseSettings host o { loadPrelude := true, maxDepth := 1000 }
  | file {path document : String} {base : Settings} : o.settingsFile = some path →
      host.read.Holds path document → host.document document = .ok base → base.maxDepth ≠ 0 →
      BaseSettings host o base

/-- The settings that are asked for are not in order: the message about them, which starts with the
path of the settings file or names the option. -/
inductive SettingsFail (host : Host) (o : Options) : String → Prop where
  | denied {path reason : String} : o.settingsFile = some path → host.read.Denies path reason →
      SettingsFail host o (path ++ ": " ++ ("Failed to read config: " ++ reason))
  | malformed {path document reason : String} : o.settingsFile = some path →
      host.read.Holds path document → host.document document = .error reason →
      SettingsFail host o (path ++ ": " ++ ("Failed to parse config: " ++ reason))
  | zeroDepth {path document : String} {base : Settings} : o.settingsFile = some path →
      host.read.Holds path document → host.document document = .ok base → base.maxDepth = 0 →
      SettingsFail host o (path ++ ": " ++ "Invalid config: max_depth must be at least 1")
  | zeroOption {base : Settings} : BaseSettings host o base → o.maxDepth = some 0 →
      SettingsFail host o "--max-depth must be at least 1"

/-- The settings with those of the arguments on top of them. -/
def Options.over (o : Options) (base : Settings) : Settings where
  loadPrelude := base.loadPrelude && !o.noPrelude
  maxDepth := o.maxDepth.getD base.maxDepth

section Settings
variable {host : Host} {o : Options} {base : Settings} {message : String}

theorem BaseSettings.maxDepth_ne_zero (h : BaseSettings host o base) : base.maxDepth ≠ 0 := by
  cases h with
  | defaults => decide
  | file _ _ _ hd => exact hd

theorem BaseSettings.over_maxDepth_ne_zero (h : BaseSettings host o base)
    (ho : o.maxDepth ≠ some 0) : (o.over base).maxDepth ≠ 0 := by
  cases hd : o.maxDepth with
  | none => simpa only [Options.over, hd, Option.getD_none] using h.maxDepth_ne_zero
  | some depth =>
    simp only [Options.over, hd, Option.getD_some]
    rintro rfl
    exact ho hd

/-- Where there are settings to start from, only a depth of zero among the arguments is at fault. -/
theorem settings_of_base (h : BaseSettings host o base) : host.settings o =
    if o.maxDepth = some 0 then .error "--max-depth must be at least 1" else .ok (o.over base) := by
  obtain ⟨files, expression, interactive, noPrelude, settingsFile, maxDepth, verbose⟩ := o
  -- with or without a settings file, each setting of the arguments is there or not
  cases h with
  | defaults hf =>
    simp only at hf
    subst hf
    cases noPrelude <;> rcases maxDepth with _ | _ | depth <;> rfl
  | file hf hr hp hd =>
    simp only at hf
    subst hf
    obtain ⟨loadPrelude, limit⟩ := base
    simp only [Host.settings, DocumentReader.settingsIn, hr.readText, DocumentReader.settings, hp,
      if_neg hd]
    cases noPrelude <;> cases loadPrelude <;> rcases maxDepth with _ | _ | depth <;> rfl

/-- The settings stage either fails or it does not. -/
theorem base_or_fails (host : Host) (o : Options) :
    (∃ base, BaseSettings host o base ∧ o.maxDepth ≠ some 0) ∨
      ∃ message, SettingsFail host o message := by
  -- the option is looked at last
  have hzero {base : Settings} (hb : BaseSettings host o base) :
      (∃ base, BaseSettings host o base ∧ o.maxDepth ≠ some 0) ∨
        ∃ message, SettingsFail host o message := by
    by_cases hd : o.maxDepth = some 0
    · exact .inr ⟨_, .zeroOption hb hd⟩
    · exact .inl ⟨base, hb, hd⟩
  cases hf : o.settingsFile with
  | none => exact hzero (.defaults hf)
  | some path =>
    rcases host.read.holds_or_denies path with ⟨document, hr⟩ | ⟨reason, hr⟩
    · cases hp : host.document document with
      | error reason => exact .inr ⟨_, .malformed hf hr hp⟩
      | ok base =>
        by_cases hd : base.maxDepth = 0
        · exact .inr ⟨_, .zeroDepth hf hr hp hd⟩
        · exact hzero (.file hf hr hp hd)
    · exact .inr ⟨_, .denied hf hr⟩

theorem settings_of_fault {path : String} (fault : SettingsFault) (hf : o.settingsFile = some path)
    (h : host.document.settingsIn host.read path = .error fault) :
    host.settings o = .error (path ++ ": " ++ fault.message) := by
  simp only [Host.settings, hf, h]
  rfl

theorem settings_of_fails (h : SettingsFail host o message) :
    host.settings o = .error message := by
  cases h with
  | denied hf hr =>
    obtain ⟨fault, hfault, rfl⟩ := hr.readText
    refine settings_of_fault (.unreadable fault) hf ?_
    rw [DocumentReader.settingsIn, hfault]
  | @malformed path document reason hf hr hp =>
    refine settings_of_fault (@SettingsFault.malformed reason) hf ?_
    rw [DocumentReader.settingsIn, hr.readText]
    simp only [DocumentReader.settings, hp]
  | zeroDepth hf hr hp hd =>
    refine settings_of_fault .zeroDepth hf ?_
    rw [DocumentReader.settingsIn, hr.readText]
    simp only [DocumentReader.settings, hp, if_pos hd]
  | zeroOption hb hd => rw [settings_of_base hb, if_pos hd]

end Settings

/-! Stages. -/

/-- The session that a run starts with, on settings over `base`. -/
structure Starts (host : Host) (input : List UInt8) (o : Options) (base : Settings)
    (s : Session) : Prop where
  under : BaseSettings host o base
  nonzero : o.maxDepth ≠ some 0
  start : Session.start (o.over base) input {} = .ok s

/-- What is shown of a stack: the value on top on a line of its own, if there is one. -/
def shown (s : Stack) : List UInt8 :=
  match s.values with
  | value :: _ => (value.render ++ "\n").toUTF8.data.toList
  | [] => []

/-- The run passes all its stages, and this is written in its course. -/
inductive Finishes (host : Host) (input : List UInt8) (o : Options) :
    List UInt8 → Prop where
  | files {base : Settings} {s t : Session} {text : List UInt8} : Starts host input o base s →
      FilesLoad host.read o.files s text t → o.expression = none → Finishes host input o text
  | expression {base : Settings} {s t u : Session} {source : String} {text text' : List UInt8} :
      Starts host input o base s → FilesLoad host.read o.files s text t →
      o.expression = some source → load source t = .ok () u → LoadPrints source t text' →
      Finishes host input o (text ++ text' ++ shown u.stack)

/-- A stage of the run fails, all stages before it having passed: the message about it, and what is
written by then. -/
inductive Stops (host : Host) (input : List UInt8) (o : Options) :
    String → List UInt8 → Prop where
  | settings {message : String} : SettingsFail host o message → Stops host input o message []
  | file {base : Settings} {s t u : Session} {earlier later : List String} {path : String}
      {message : String} {text text' : List UInt8} : Starts host input o base s →
      o.files = earlier ++ path :: later → FilesLoad host.read earlier s text t →
      FileFails host.read path t message text' u →
      Stops host input o message (text ++ text')
  | expression {base : Settings} {s t u : Session} {source : String} {error : EvalError}
      {text text' : List UInt8} : Starts host input o base s →
      FilesLoad host.read o.files s text t → o.expression = some source →
      load source t = .error error u → LoadPrints source t text' →
      Stops host input o error.message (text ++ text')

section Stages
variable {host host' : Host} {input : List UInt8} {o o' : Options} {base : Settings}
  {s t : Session} {message : String} {written : List UInt8}

/-- Where the settings are in order a session starts: the word library is never at fault. -/
theorem exists_starts (hb : BaseSettings host o base) (hd : o.maxDepth ≠ some 0)
    (input : List UInt8) : ∃ s, Starts host input o base s := by
  obtain ⟨d, hstart⟩ := Session.exists_start
  exact ⟨_, hb, hd, hstart (o.over base) input {}⟩

theorem Starts.session (h : Starts host input o base s) :
    ∃ dictionary, s = { settings := o.over base, dictionary, input } := by
  obtain ⟨d, hstart⟩ := Session.exists_start
  exact ⟨_, Except.ok.inj (h.start.symm.trans (hstart (o.over base) input {}))⟩

/-- The output of a session in which files have been loaded. -/
theorem Starts.output_of_load (h : Starts host input o base s) {files : List String}
    {text : List UInt8} (hf : FilesLoad host.read files s text t) : t.output = .after {} text := by
  obtain ⟨dictionary, rfl⟩ := h.session
  exact hf.output Output.accepts_empty

/-- The output once a source text has been evaluated on top of that. -/
theorem Starts.output_of_source (h : Starts host input o base s) {files : List String}
    {source : String} {text text' : List UInt8} (hf : FilesLoad host.read files s text t)
    (hp : LoadPrints source t text') :
    (finalState (load source t)).output = .after {} (text ++ text') := by
  have ht : t.output = .after {} text := h.output_of_load hf
  have haccepts : t.output.Accepts := ht ▸ Output.accepts_empty.after text
  calc (finalState (load source t)).output
      = t.output.after text' := output_load hp haccepts
    _ = (Output.after {} text).after text' := by rw [ht]
    _ = .after {} (text ++ text') := Output.after_after ..

theorem runOptions_of_starts (h : Starts host input o base s) : host.runOptions input o =
    match batch host.read o s with
    | .error message t => .failure s!"Error: {message}" t.output
    | .ok () t => if o.startsLoop then host.loop input t else { output := t.output } := by
  cases hb : batch host.read o s <;>
    simp only [Host.runOptions, settings_of_base h.under, if_neg h.nonzero, h.start, hb]

theorem batch_of_load {text : List UInt8} (h : FilesLoad host.read o.files s text t) :
    batch host.read o s = match o.expression with
      | some source => showExpression source t
      | none => .ok () t := by
  have hfiles : loadFiles host.read o.files s = .ok () t := by
    have hl := loadFiles_of_load h []
    rwa [List.append_nil] at hl
  rw [batch, bind_of_ok hfiles]
  cases o.expression <;> rfl

theorem finishes_or_stops (host : Host) (input : List UInt8) (o : Options) :
    (∃ written, Finishes host input o written) ∨
      ∃ message written, Stops host input o message written := by
  rcases base_or_fails host o with ⟨base, hb, hd⟩ | ⟨message, hfail⟩
  · obtain ⟨s, hs⟩ := exists_starts hb hd input
    rcases filesLoad_or_fails host.read o.files s with ⟨text, t, hl⟩ |
      ⟨earlier, path, later, text, t, message, text', u, hfiles, hl, hfail⟩
    · cases he : o.expression with
      | none => exact .inl ⟨_, .files hs hl he⟩
      | some source =>
        obtain ⟨text', hp⟩ := exists_loadPrints source t
        cases hload : load source t with
        | ok _ u => exact .inl ⟨_, .expression hs hl he hload hp⟩
        | error error u => exact .inr ⟨_, _, .expression hs hl he hload hp⟩
    · exact .inr ⟨_, _, .file hs hfiles hl hfail⟩
  · exact .inr ⟨_, _, .settings hfail⟩

theorem runOptions_of_finishes (h : Finishes host input o written) (hl : o.startsLoop = false) :
    host.runOptions input o = { output := .after {} written } := by
  cases h with
  | files hs hf he =>
    have hbatch := batch_of_load hf
    rw [he] at hbatch
    simp only [runOptions_of_starts hs, hbatch, hl, Bool.false_eq_true, if_false,
      hs.output_of_load hf]
  | @expression base s t u source text text' hs hf he hload hp =>
    have hu : u.output = .after {} (text ++ text') := by
      have h := hs.output_of_source hf hp
      rwa [hload] at h
    have hbatch := batch_of_load hf
    simp only [he, showExpression, evaluateLine_of_ok hload] at hbatch
    have haccepts : u.output.Accepts := hu ▸ Output.accepts_empty.after _
    -- what the programs print is followed by the value on top, if there is one
    cases hvalues : u.stack.values with
    | nil =>
      simp only [Stack.top?, hvalues, List.head?_nil] at hbatch
      simp only [runOptions_of_starts hs, hbatch, hl, Bool.false_eq_true, if_false, hu, shown,
        hvalues, List.append_nil]
    | cons value rest =>
      simp only [Stack.top?, hvalues, List.head?_cons, Repl.tell_of_accepts haccepts, hu,
        Output.after_after] at hbatch
      simp only [runOptions_of_starts hs, hbatch, hl, Bool.false_eq_true, if_false, shown, hvalues]
      rfl

theorem runOptions_of_stops (h : Stops host input o message written) :
    host.runOptions input o =
      { exitCode := 1, output := .after {} written, errors := ["Error: " ++ message] } := by
  cases h with
  | settings hfail =>
    simp only [Host.runOptions, settings_of_fails hfail, Output.after_nil]
    rfl
  | @file base s t u earlier later path message text text' hs hfiles hf hfail =>
    have ht : t.output = .after {} text := hs.output_of_load hf
    have hu : u.output = .after {} (text ++ text') :=
      calc u.output
          = t.output.after text' := hfail.output (ht ▸ Output.accepts_empty.after text)
        _ = (Output.after {} text).after text' := by rw [ht]
        _ = .after {} (text ++ text') := Output.after_after ..
    -- the files after it are not reached
    have hbatch : batch host.read o s = .error message u := by
      rw [batch, hfiles]
      exact bind_of_error (loadFiles_of_fails hf hfail later)
    simp only [runOptions_of_starts hs, hbatch, hu]
    rfl
  | @expression base s t u source error text text' hs hf he hload hp =>
    have hu : u.output = .after {} (text ++ text') := by
      have h := hs.output_of_source hf hp
      rwa [hload] at h
    have hbatch := batch_of_load hf
    simp only [he, showExpression, evaluateLine_of_error hload] at hbatch
    simp only [runOptions_of_starts hs, hbatch, hu]
    rfl

/-- The two runs have the settings in common, and the files in `first` come first in both; they find
the same behind all paths that these ask for, and have the same format of settings files. -/
structure Common (host host' : Host) (o o' : Options) (first : List String) : Prop where
  settingsFile : o'.settingsFile = o.settingsFile
  noPrelude : o'.noPrelude = o.noPrelude
  maxDepth : o'.maxDepth = o.maxDepth
  files : ∃ later, o'.files = first ++ later
  document : host'.document = host.document
  read : ∀ path ∈ o.settingsFile.toList ++ first, host'.read path = host.read path

section Common
variable {first : List String}

theorem Common.read_settingsFile (h : Common host host' o o' first) {path : String}
    (hp : o.settingsFile = some path) : host'.read path = host.read path :=
  h.read path (by simp only [hp, Option.toList_some, List.mem_append, List.mem_singleton, true_or])

theorem BaseSettings.congr (hb : BaseSettings host o base) (h : Common host host' o o' first) :
    BaseSettings host' o' base := by
  cases hb with
  | defaults hf => exact .defaults (h.settingsFile.trans hf)
  | file hf hr hp hd =>
    exact .file (h.settingsFile.trans hf) (hr.congr (h.read_settingsFile hf)) (h.document ▸ hp) hd

theorem SettingsFail.congr (hb : SettingsFail host o message) (h : Common host host' o o' first) :
    SettingsFail host' o' message := by
  cases hb with
  | denied hf hr => exact .denied (h.settingsFile.trans hf) (hr.congr (h.read_settingsFile hf))
  | malformed hf hr hp =>
    exact .malformed (h.settingsFile.trans hf) (hr.congr (h.read_settingsFile hf)) (h.document ▸ hp)
  | zeroDepth hf hr hp hd =>
    exact .zeroDepth (h.settingsFile.trans hf) (hr.congr (h.read_settingsFile hf))
      (h.document ▸ hp) hd
  | zeroOption hb hd => exact .zeroOption (hb.congr h) (h.maxDepth.trans hd)

theorem Starts.congr (hs : Starts host input o base s) (h : Common host host' o o' first) :
    Starts host' input o' base s where
  under := hs.under.congr h
  nonzero := h.maxDepth ▸ hs.nonzero
  start := by
    have hover : o'.over base = o.over base := by
      rw [Options.over, Options.over, h.noPrelude, h.maxDepth]
    rw [hover, hs.start]

/-- Where a file fails, the files after it and the expression do not matter. -/
theorem stops_congr {u : Session} {earlier : List String} {path : String}
    {text text' : List UInt8} (hs : Starts host input o base s)
    (hf : FilesLoad host.read earlier s text t) (hfail : FileFails host.read path t message text' u)
    (h : Common host host' o o' (earlier ++ [path])) :
    Stops host' input o' message (text ++ text') := by
  obtain ⟨later, hfiles⟩ := h.files
  rw [List.append_assoc] at hfiles
  have hread (p : String) (hp : p ∈ earlier ++ [path]) : host'.read p = host.read p :=
    h.read p (List.mem_append_right _ hp)
  have hpath : host'.read path = host.read path :=
    hread path (List.mem_append_right _ List.mem_cons_self)
  exact .file (hs.congr h) hfiles (hf.congr fun p hp => hread p (List.mem_append_left _ hp))
    (hfail.congr hpath)

end Common

/-- What a run passes if it comes to its end. -/
theorem Finishes.passes (h : Finishes host input o written) : ∃ base s text t,
    Starts host input o base s ∧ FilesLoad host.read o.files s text t ∧
      ∀ source, o.expression = some source → ∃ u, load source t = .ok () u := by
  cases h with
  | files hs hf he =>
    refine ⟨_, _, _, _, hs, hf, fun source hsource => ?_⟩
    rw [he] at hsource
    cases hsource
  | expression hs hf he hload _ =>
    refine ⟨_, _, _, _, hs, hf, fun source hsource => ?_⟩
    cases he.symm.trans hsource
    exact ⟨_, hload⟩

theorem finishes_of_passes {text : List UInt8} (hs : Starts host input o base s)
    (hf : FilesLoad host.read o.files s text t)
    (he : ∀ source, o.expression = some source → ∃ u, load source t = .ok () u) :
    ∃ written, Finishes host input o written := by
  cases hsource : o.expression with
  | none => exact ⟨text, .files hs hf hsource⟩
  | some source =>
    obtain ⟨u, hload⟩ := he source hsource
    obtain ⟨text', hp⟩ := exists_loadPrints source t
    exact ⟨_, .expression hs hf hsource hload hp⟩

end Stages

section Run
variable {host : Host} {arguments : List String} {o : Options}

theorem run_of_options (h : host.arguments arguments = .ok o) (input : List UInt8) :
    host.run input arguments = host.runOptions input o := by
  rw [Host.run, h]

/-- A run on files or an expression, without the loop. It succeeds if the settings are in order, the
files load one after the other in one session, and the expression evaluates there; else its only
message is about the first of these that fails, and neither the files nor the expression after that
matter. Its output is what the programs print, and after an expression the value on top of the
stack. The session has the settings of the file or the defaults, with those of the arguments on top,
and they allow calls. -/
theorem run_batch (ho : host.arguments arguments = .ok o) (hi : o.interactive = false)
    (hb : o.files ≠ [] ∨ o.expression ≠ none) (input : List UInt8) :
    ((host.run input arguments).exitCode = 0 ↔ ∃ base s text t, Starts host input o base s ∧
      FilesLoad host.read o.files s text t ∧
      ∀ source, o.expression = some source → ∃ u, load source t = .ok () u) ∧
    (∀ written, Finishes host input o written → host.run input arguments =
      { exitCode := 0, output := .after {} written, errors := [] }) ∧
    (∀ message written, Stops host input o message written → host.run input arguments =
      { exitCode := 1, output := .after {} written, errors := ["Error: " ++ message] }) ∧
    ((∃ written, Finishes host input o written) ∨
      ∃ message written, Stops host input o message written) ∧
    (∀ (host' : Host) arguments' o', host'.arguments arguments' = .ok o' →
      (∀ message, SettingsFail host o message → Common host host' o o' [] →
        host'.run input arguments' = host.run input arguments) ∧
      ∀ base s earlier path later text t message text' u, Starts host input o base s →
        o.files = earlier ++ path :: later → FilesLoad host.read earlier s text t →
        FileFails host.read path t message text' u → Common host host' o o' (earlier ++ [path]) →
        host'.run input arguments' = host.run input arguments) ∧
    ∀ base, BaseSettings host o base → o.maxDepth ≠ some 0 → (o.over base).maxDepth ≠ 0 ∧
      (∃ s, Starts host input o base s) ∧
      ∀ s files text t, Starts host input o base s → FilesLoad host.read files s text t →
        t.settings = o.over base := by
  have hl : o.startsLoop = false := by
    rw [Options.startsLoop, hi, Bool.false_or, Bool.and_eq_false_iff]
    rcases hb with hfiles | hexpression
    · exact .inl (List.isEmpty_eq_false_iff.2 hfiles)
    · exact .inr (Option.isNone_eq_false_iff.2 (Option.isSome_iff_ne_none.2 hexpression))
  have hrun := run_of_options ho input
  have hfinish (written : List UInt8) (h : Finishes host input o written) :
      host.run input arguments = { exitCode := 0, output := .after {} written, errors := [] } :=
    hrun.trans (runOptions_of_finishes h hl)
  have hstop (message : String) (written : List UInt8) (h : Stops host input o message written) :
      host.run input arguments =
        { exitCode := 1, output := .after {} written, errors := ["Error: " ++ message] } :=
    hrun.trans (runOptions_of_stops h)
  refine ⟨⟨?_, ?_⟩, hfinish, hstop, finishes_or_stops host input o, ?_, ?_⟩
  · -- a run that stops has another exit code
    intro hexit
    rcases finishes_or_stops host input o with ⟨written, h⟩ | ⟨message, written, h⟩
    · exact h.passes
    · rw [hstop message written h] at hexit
      cases hexit
  · intro hpasses
    obtain ⟨base, s, text, t, hs, hf, he⟩ := hpasses
    obtain ⟨written, h⟩ := finishes_of_passes hs hf he
    rw [hfinish written h]
  · -- both runs stop at the same stage, with the same message
    intro host' arguments' o' ho'
    refine ⟨fun message hfail hc => ?_, ?_⟩
    · rw [hstop message [] (.settings hfail), run_of_options ho']
      exact runOptions_of_stops (.settings (hfail.congr hc))
    · intro base s earlier path later text t message text' u hs hfiles hf hfail hc
      rw [hstop _ _ (.file hs hfiles hf hfail), run_of_options ho']
      exact runOptions_of_stops (stops_congr hs hf hfail hc)
  · -- loading changes no settings
    intro base hbase hd
    refine ⟨hbase.over_maxDepth_ne_zero hd, exists_starts hbase hd input, ?_⟩
    intro s files text t hs hf
    obtain ⟨dictionary, rfl⟩ := hs.session
    exact hf.settings

theorem eq_ok_of_failure? {r : EStateM.Result EvalError Session Unit} (h : failure? r = none) :
    r = .ok () (finalState r) := by
  cases r with
  | ok _ t => rfl
  | error error t => cases h

/-- What has been written tells what was printed. -/
theorem loadPrints_of_written {source : String} {s : Session} {text : List UInt8}
    (ho : s.output.Accepts)
    (h : (finalState (load source s)).output.written = s.output.written ++ text) :
    LoadPrints source s text := by
  obtain ⟨text', hprints⟩ := exists_loadPrints source s
  have hwritten := (congrArg Output.written (output_load hprints ho)).symm.trans h
  have hlist : s.output.written.toList ++ text' = s.output.written.toList ++ text := by
    simpa [Output.after] using congrArg Array.toList hwritten
  obtain rfl := List.append_cancel_left hlist
  exact hprints

/-- Files for a run: settings without the word library and with one level of nesting, a program that
prints, and one that nests too deep. -/
def sampleFiles : FileReader
  | "settings" => .ok (Output.bytes "load_prelude = false\nmax_depth = 1\n")
  | "first" => .ok (Output.bytes "\x7b 7 \x7d apply print")
  | "second" => .ok (Output.bytes "\x7b \x7b 8 \x7d apply \x7d apply")
  | _ => .error .noSuchFile

/-- The second file fails at the limit that the settings file has set, so that the expression is not
evaluated; what the first one has printed stays. -/
theorem run_batch_nested :
    (Host.standard sampleFiles).run []
        ["--config", "settings", "first", "second", "-e", "9 print"] =
      { exitCode := 1, output := .after {} "7\n".toUTF8.data.toList
        errors := ["Error: second: nesting depth exceeded the limit of 1 in 'apply'" ++
          " (called from apply)"] } := by
  let host := Host.standard sampleFiles
  let o : Options := { files := ["first", "second"], expression := some "9 print",
                       settingsFile := some "settings" }
  let base : Settings := { loadPrelude := false, maxDepth := 1 }
  let s : Session := { settings := base }
  have ho : host.arguments ["--config", "settings", "first", "second", "-e", "9 print"] =
      .ok o := by
    have h : Options.ofArguments ["--config", "settings", "first", "second", "-e", "9 print"] =
        .ok o := by decide +kernel
    exact congrArg (Except.mapError Report.ofStop) h
  have hsettings : host.read.Holds "settings" "load_prelude = false\nmax_depth = 1\n" :=
    ⟨_, rfl, by decide +kernel⟩
  have hdocument : host.document "load_prelude = false\nmax_depth = 1\n" = .ok base := by
    decide +kernel
  have hstarts : Starts host [] o base s :=
    ⟨.file rfl hsettings hdocument (by decide), by decide, rfl⟩
  -- what the files do is seen by running them
  have hfirst : host.read.Holds "first" "\x7b 7 \x7d apply print" := ⟨_, rfl, by decide +kernel⟩
  have hsecond : host.read.Holds "second" "\x7b \x7b 8 \x7d apply \x7d apply" :=
    ⟨_, rfl, by decide +kernel⟩
  let t := finalState (load "\x7b 7 \x7d apply print" s)
  have hload : load "\x7b 7 \x7d apply print" s = .ok () t := by
    have hnone : failure? (load "\x7b 7 \x7d apply print" s) = none := by decide +kernel
    exact eq_ok_of_failure? hnone
  have hfails : failure? (load "\x7b \x7b 8 \x7d apply \x7d apply" t) = some
      { kind := .recursionLimit 1, word := some "apply", trace := ["apply"] } := by decide +kernel
  obtain ⟨u, hfails⟩ := failure?_eq_some.1 hfails
  have hprints : LoadPrints "\x7b 7 \x7d apply print" s "7\n".toUTF8.data.toList :=
    loadPrints_of_written Output.accepts_empty (by decide +kernel)
  have haccepts : t.output.Accepts := by
    have hout := output_load hprints Output.accepts_empty
    exact hout ▸ Output.accepts_empty.after _
  have hprints' : LoadPrints "\x7b \x7b 8 \x7d apply \x7d apply" t [] :=
    loadPrints_of_written haccepts (by decide +kernel)
  exact (run_batch ho rfl (.inl (by decide)) []).2.2.1 _ _
    (.file hstarts (rfl : o.files = ["first"] ++ "second" :: [])
      (.cons hfirst hload hprints (.nil t)) (.failed hsecond hfails hprints'))

end Run

end CommandLine

end StackCalc
