/-! # File types

The type of a file is told by its extension, letter case ignored. -/

namespace ProjectGraph

inductive FileType where
  | c
  | cpp
  | cHeader
  | swift
  | objc
  | objcpp
  | xib
  | storyboard
  | plist
  | xcconfig
  | strings
  | json
  | assetCatalog
  | framework
  | bundle
  | app
  | appExtension
  | xctest
  | dylib
  | archive
  | executable
  | shellScript
  | text
  deriving DecidableEq, Repr

/-- The lower case of a character, as far as it is in ASCII; the Kelvin sign is the only other
character that has one there. -/
def lowerChar (c : Char) : Char :=
  if 'A' ≤ c ∧ c ≤ 'Z' then Char.ofNat (c.toNat + 32)
  else if c = '\u212a' then 'k'
  else c

/-- A text ready to be compared with lower-case ASCII names. -/
def lowerText (s : String) : String := String.ofList (s.toList.map lowerChar)

namespace FileType

/-- The name of the type in a project file. -/
def name : FileType → String
  | c => "sourcecode.c.c"
  | cpp => "sourcecode.cpp.cpp"
  | cHeader => "sourcecode.c.h"
  | swift => "sourcecode.swift"
  | objc => "sourcecode.c.objc"
  | objcpp => "sourcecode.cpp.objcpp"
  | xib => "file.xib"
  | storyboard => "file.storyboard"
  | plist => "text.plist.xml"
  | xcconfig => "text.xcconfig"
  | strings => "text.plist.strings"
  | json => "text.json"
  | assetCatalog => "folder.assetcatalog"
  | framework => "wrapper.framework"
  | bundle => "wrapper.bundle"
  | app => "wrapper.application"
  | appExtension => "wrapper.app-extension"
  | xctest => "wrapper.cfbundle"
  | dylib => "compiled.mach-o.dylib"
  | archive => "archive.ar"
  | executable => "compiled.mach-o.executable"
  | shellScript => "text.script.sh"
  | text => "text"

/-- The type of each known extension. -/
def known : List (String × FileType) :=
  [("c", c), ("cpp", cpp), ("h", cHeader), ("swift", swift), ("m", objc), ("mm", objcpp),
    ("xib", xib), ("storyboard", storyboard), ("plist", plist), ("xcconfig", xcconfig),
    ("strings", strings), ("json", json), ("xcassets", assetCatalog), ("framework", framework),
    ("bundle", bundle), ("app", app), ("appex", appExtension), ("xctest", xctest),
    ("dylib", dylib), ("a", archive), ("sh", shellScript)]

/-- A text without the dot that it may start with. -/
def withoutDot (s : String) : String :=
  match s.toList with
  | '.' :: cs => String.ofList cs
  | _ => s

/-- The type for an extension, given with or without its dot. -/
def ofExtension (extension : String) : FileType :=
  ((known.find? fun e => e.1 = lowerText (withoutDot extension)).map Prod.snd).getD text

end FileType
end ProjectGraph
