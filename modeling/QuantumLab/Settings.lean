import QuantumLab.Table

/-
  This file defines settings: typed values under names.

  Key definitions include:
    * `Setting`, `SettingType`
    * `Settings`
    * `Settings.get`
    * `Settings.getOr`
-/

namespace QuantumLab

/-
  The types of settings.
-/
inductive SettingType where
  | real
  | size
  | text
deriving DecidableEq, Repr

/-
  The value of a setting.
-/
inductive Setting (R : Type) where
  | real (x : R)
  | size (n : Nat)
  | text (s : String)
deriving DecidableEq, Repr

/- The type of a setting. -/
def Setting.type {R : Type} : Setting R → SettingType
  | real _ => .real
  | size _ => .size
  | text _ => .text

/-
  Why a setting cannot be read.
-/
inductive SettingFault where
  | missing
  | wrongType
deriving DecidableEq, Repr

/- Settings by name. -/
abbrev Settings (R : Type) :=
  Table (Setting R)

namespace Settings

variable {R : Type}

/- A setting that has to be of a type. -/
def typed
    (type : SettingType)
    (setting : Setting R) : Except SettingFault (Setting R) :=
  if setting.type = type then .ok setting else .error .wrongType

/- The setting of a name, which has to be there and of a type. -/
def get
    (settings : Settings R)
    (name : String)
    (type : SettingType) : Except SettingFault (Setting R) :=
  match settings.find? name with
  | some setting => typed type setting
  | none => .error .missing

/- The setting of a name and of the type of a default, or the default. -/
def getOr
    (settings : Settings R)
    (name : String)
    (default : Setting R) : Except SettingFault (Setting R) :=
  match settings.find? name with
  | some setting => typed default.type setting
  | none => .ok default

end Settings

end QuantumLab
