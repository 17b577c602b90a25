/-!
# Hosts

What the command line needs of the system around it: text files, environment variables and a home
directory. A file that cannot be read comes with the system's reason.
-/

namespace CellularCoprocessor.CommandLine

inductive ReadFault where
  | system (text : String) (code : Nat)
  | notText
  deriving DecidableEq

namespace ReadFault

def missing : ReadFault := system "No such file or directory" 2

def notDirectory : ReadFault := system "Not a directory" 20

def isDirectory : ReadFault := system "Is a directory" 21

def nameTooLong : ReadFault := system "File name too long" 36

def message : ReadFault → String
  | system text code => s!"{text} (os error {code})"
  | notText => "stream did not contain valid UTF-8"

end ReadFault

structure Host (m : Type → Type) where
  fetch : (path : String) → m (Except ReadFault String)
  environment : (name : String) → m (Option String)
  home? : m (Option String)

def joinPath (directory name : String) : String :=
  if directory.endsWith "/" then directory ++ name else directory ++ "/" ++ name

/-- The directory of user settings: `preferred` if it is an absolute path, else one below `home`. -/
def configDirectory? (preferred home : Option String) : Option String :=
  match preferred.filter (·.startsWith "/") with
  | some directory => some directory
  | none => home.map (joinPath · ".config")

def userSettingsPath? (preferred home : Option String) : Option String :=
  (configDirectory? preferred home).map fun directory =>
    joinPath (joinPath directory "ca-coproc") "config.toml"

def localSettingsPath : String := "ca-coproc.toml"

end CellularCoprocessor.CommandLine
