import WireSchema.Bundle
import WireSchema.Rendering.EnumModule
import WireSchema.Text.Blank

/-! Packages of emitted source: a module for each definition, and an index that declares the
modules, exports their items and holds the registry of layouts. -/

namespace WireSchema

structure RenderOptions where
  /-- Where emitted modules find what they are built on. -/
  runtimePath : String
  deriving DecidableEq, Repr

def RenderOptions.standard : RenderOptions := ⟨"idl_typegen::runtime"⟩

structure Module where
  typeName : String
  ident : String
  source : Source
  deriving DecidableEq, Repr

namespace Module

def fileName (module : Module) : String := Naming.fileStem module.ident ++ ".rs"

def declaration (ident : String) : String := s!"pub mod {ident};"

end Module

structure Package where
  modules : List Module
  index : Source
  deriving DecidableEq, Repr

namespace Bundle

def items (bundle : Bundle) : Except SchemaError (List Source) := do
  let scope : Scope := ⟨bundle.table, bundle.name⟩
  match bundle.type.body with
  | .struct fields =>
    return scope.structItems bundle.layout (← Member.ofFields bundle.name [] fields)
  | .enum variants =>
    return scope.enumItems bundle.layout (← MemberVariant.ofVariants bundle.name variants)

def render (bundle : Bundle) (options : RenderOptions) : Except SchemaError Source := do
  let items ← bundle.items
  let kind := bundle.type.body.kind.text
  return Source.spaced <|
    [.line s!"//! `{bundle.name}` ({kind}) generated from the IDL. Do not edit by hand.",
     .line "#![allow(unused_imports, clippy::redundant_closure)]"] ::
    [.line "use serde::\x7bDeserialize, Serialize\x7d;",
     .line (s!"use {options.runtimePath}::\x7bself, " ++
       "CodecError, ConvertError, Decoded, Layout, PublicKey\x7d;")] ::
    items

end Bundle

namespace Catalog

def renderModule (catalog : Catalog) (options : RenderOptions) (type : TypeDef) :
    Except SchemaError Module := do
  let bundle ← catalog.bundle type.name
  return ⟨type.name, type.moduleIdent, ← bundle.render options⟩

def exportLine (type : TypeDef) : Source.Step :=
  let items := ", ".intercalate type.exportedItems
  .line s!"pub use {type.moduleIdent}::\x7b{items}\x7d;"

def registryLine (type : TypeDef) : Source.Step :=
  let layout := match type.body with
    | .struct _ => s!"{type.moduleIdent}::{Naming.typeIdent type.name}::layout()"
    | .enum _ => s!"{type.moduleIdent}::layout()"
  .line s!"        ({Quoted.quote type.name}, {layout}),"

def registryLines (types : List TypeDef) (registryPath : String) : Source :=
  [.line (s!"static REGISTRY: std::sync::LazyLock<{registryPath}> = " ++
    "std::sync::LazyLock::new(|| \x7b")] ++
  (if types.isEmpty then [.line s!"    {registryPath}::default()"]
   else [.line "    ["] ++ types.map registryLine ++
     [.line "    ]", .line "    .into_iter()", .line "    .collect()"]) ++
  [.line "\x7d);"]

def renderIndex (catalog : Catalog) (options : RenderOptions) : Source :=
  let types := catalog.table.types
  let registryPath := options.runtimePath ++ "::LayoutRegistry"
  Source.spaced
    [[.line "//! Types generated from the IDL. Do not edit by hand."],
     types.map fun type => .line (Module.declaration type.moduleIdent),
     types.map exportLine,
     registryLines types registryPath,
     .line "/// Layouts of every generated type, for resolving references at encode/parse time." ::
       Source.block s!"pub fn registry() -> &'static {registryPath}" [.line "&REGISTRY"]]

def render (catalog : Catalog) (options : RenderOptions) : Except SchemaError Package := do
  let modules ← catalog.table.types.mapM (catalog.renderModule options)
  return ⟨modules, catalog.renderIndex options⟩

end Catalog

namespace Package

def files (package : Package) : List (String × String) :=
  ("mod.rs", package.index.render) ::
    package.modules.map fun module => (module.fileName, module.source.render)

/-- Lines of a text that ends with a line break; a carriage return before it belongs to it. -/
def linesOf (text : String) : List String :=
  (Source.lines text).dropLast.map fun line =>
    match line.toList.reverse with
    | '\r' :: rest => String.ofList rest.reverse
    | _ => line

def trimEnd (text : String) : String :=
  String.ofList (Blank.trimEnd text.toList)

/-- Replaces the first line that declares each module by the module itself. -/
def inlineModules : List Module → List String → Source
  | _, [] => []
  | modules, line :: rest =>
    match modules.find? fun module => Module.declaration module.ident = line with
    | some module =>
      Source.block s!"pub mod {module.ident}" [.line (trimEnd module.source.render)] ++
        inlineModules (modules.filter fun other => other.ident ≠ module.ident) rest
    | none => .line line :: inlineModules modules rest

def singleSource (package : Package) : Source :=
  inlineModules package.modules (linesOf package.index.render)

end Package

end WireSchema
