import BJvm.Classpath.Jar

/-!
# The class path

`init_classpath` in `classpath.c`.
-/

namespace BJvm.Classpath

open Adt

/-- `classpath_entry` -/
structure ClasspathEntry where
  name : List UInt8
  jar : Option (MappedJar × JarTable)

/-- `classpath` -/
structure ClassPath where
  entries : List ClasspathEntry := []
  asColonSeparated : List UInt8 := []

/-- `map_jar`: the file of this name in memory, or what is wrong. -/
abbrev MapJar := List UInt8 → Except Message MappedJar

/-- `".jar"` -/
def jarSuffix : List UInt8 := [0x2E, 0x6A, 0x61, 0x72]

/-- `':'` -/
def colon : UInt8 := 0x3A

variable (mapJar : MapJar)

/-- `add_classpath_jar`, with the entry that it adds. -/
def addClasspathJar (entry : List UInt8) : Option (Except Message ClasspathEntry) :=
  -- the copy of the name ends at the first zero byte
  match mapJar (cString entry) with
  | .error error => some (.error error)
  | .ok jar => (jar.loadFilesystemJar (cString entry)).map fun p =>
      p.2.map fun entries => { name := entry, jar := some (jar, entries) }

/-- `add_classpath_entry`, with the entry that it adds. -/
def addClasspathEntry (entry : List UInt8) : Option (Except Message ClasspathEntry) :=
  if 4 ≤ entry.length ∧ entry.drop (entry.length - 4) = jarSuffix then
    addClasspathJar mapJar entry
  else some (.ok { name := entry, jar := none })

/-- What `init_classpath` leaves: the class path, the entries that it has freed, and the message
that it returns. -/
structure InitResult where
  cp : ClassPath
  freed : List ClasspathEntry
  error : Option Message

/-- `free_classpath`, and the message. -/
def ClassPath.fail (cp : ClassPath) (error : Message) : InitResult where
  cp := {}
  freed := cp.entries
  error := some error

/-- The loop of `init_classpath`, with `n` values of `i` to go. -/
def initLoop (path : List UInt8) : (n i start : Nat) → ClassPath → Option InitResult
  | 0, _, _, cp => some { cp, freed := [], error := none }
  | n + 1, i, start, cp =>
    if i = path.length ∨ path[i]? = some colon then
      let entry := (path.drop start).take (i - start)
      -- an empty entry leaves `start` where it is
      if entry.length = 0 then initLoop path n (i + 1) start cp
      else do
        match ← addClasspathEntry mapJar entry with
        | .error error => return cp.fail error
        | .ok ent => initLoop path n (i + 1) (i + 1) { cp with entries := cp.entries ++ [ent] }
    else initLoop path n (i + 1) start cp

/-- `init_classpath` -/
def initClasspath (path : List UInt8) : Option InitResult :=
  initLoop mapJar path (path.length + 1) 0 0 { asColonSeparated := path }

/-! ### What it is for -/

/-- The components of a path that are not empty. -/
def components (path : List UInt8) : List (List UInt8) := (path.splitOn colon).filter (· ≠ [])

/-- The component can be added, as this entry. -/
def Adds (component : List UInt8) (ent : ClasspathEntry) : Prop :=
  addClasspathEntry mapJar component = some (.ok ent)

/-- The entries are those of the components, in order; if one cannot be added, those before it have
been freed, and its message is returned. -/
structure InitsRight (path : List UInt8) : Prop where
  added : ∀ entries, List.Forall₂ (Adds mapJar) (components path) entries →
    initClasspath mapJar path = some
      { cp := { entries, asColonSeparated := path }, freed := [], error := none } ∧
    entries.map (·.name) = components path
  failed : ∀ before component after entries error, components path = before ++ component :: after →
    List.Forall₂ (Adds mapJar) before entries →
    addClasspathEntry mapJar component = some (.error error) →
    initClasspath mapJar path = some { cp := {}, freed := entries, error := some error }

end BJvm.Classpath
