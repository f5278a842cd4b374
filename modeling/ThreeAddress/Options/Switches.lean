import ThreeAddress.Options.Arguments
import ThreeAddress.Settings

/-!
# Switches of the settings

Every warning and every feature is a switch of a group. A switch that is both on and off is off.
-/

namespace ThreeAddress.Options

def warningSwitch (w : Warning) : Switch :=
  { name := w.name, stem := "W", usage := w.description, on? := some false, off? := some false }

def featureSwitch (f : Feature) : Switch :=
  { name := f.name, stem := "F", usage := f.description, on? := some false, off? := some false }

def warningGroup : FlagGroup :=
  { name := "Warning Flags", description := "Enable or disable specific warnings"
    kind := "warning flag", header := "Available Warning Flags:"
    switches := Warning.table.map warningSwitch }

def featureGroup : FlagGroup :=
  { name := "Feature Flags", description := "Enable or disable specific features"
    kind := "feature flag", header := "Available feature flags:"
    switches := Feature.table.map featureSwitch }

/-- Adds the groups of the settings. -/
def withSwitches (fs : FlagSet) : Except DefineFault FlagSet :=
  fs.addGroups [warningGroup, featureGroup]

/-- A value after a switch: off if the flag for off is set, else on if the flag for on is set. -/
def switched (fs : FlagSet) (s : Switch) (before : Bool) : Bool :=
  if fs.isOn s.offName then false else if fs.isOn s.onName then true else before

/-- The settings after the switches of their groups. -/
def applyGroups (fs : FlagSet) (settings : Settings) : Settings :=
  { settings with
    warning := fun w => switched fs (warningSwitch w) (settings.warning w)
    feature := fun f => switched fs (featureSwitch f) (settings.feature f) }

end ThreeAddress.Options
