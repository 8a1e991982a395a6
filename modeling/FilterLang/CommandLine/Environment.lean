import FilterLang.Text.Basic

/-!
The environment variables that lead to the settings file.
-/
namespace FilterLang

structure Environment where
  settingsFile : Option Text
  settingsHome : Option Text
  home : Option Text
  deriving DecidableEq, Repr

namespace Environment

/-- A path inside a directory. An empty directory is the working one. -/
def inside (directory path : Text) : Text :=
  if directory.isEmpty ∨ directory.getLast? = some '/' then directory ++ path
  else directory ++ '/' :: path

/-- The path of the settings file. The first variable that is set decides, but an empty home counts
as unset. -/
def settingsPath? (e : Environment) : Option Text :=
  (e.settingsFile.or (e.settingsHome.map (inside · "dfq/config.toml".toList))).or
    ((e.home.filter (!·.isEmpty)).map (inside · ".config/dfq/config.toml".toList))

end Environment
end FilterLang
