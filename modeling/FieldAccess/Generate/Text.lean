import FieldAccess.Generate.Run
import FieldAccess.Source.Parser.Decl
import FieldAccess.Source.Printer

namespace FieldAccess

inductive TextFault where
  | malformed (error : SyntaxError)
  | rejected (error : RedirectError)
  | failed (error : GenerateError)
  | accepted (redirected : FuncDecl)

def TextFault.message : TextFault → String
  | malformed error => "Parsing failed: " ++ error.render
  | rejected error => "Rewrite failed: " ++ error.message
  | failed error => "Generation failed: " ++ error.message
  | accepted redirected => "expected a rewrite error, got:\n" ++ redirected.render

namespace Schema

def parsed {α : Type} (result : Except SyntaxError α) : Except TextFault α :=
  result.mapError .malformed

def redirect (schema : Schema) (settings : Settings) (methods : List FuncDecl) (f : FuncDecl) :
    Except RedirectError FuncDecl :=
  f.redirect (Catalog.build schema settings {}).value ⟨methods⟩ settings

def redirectText (schema : Schema) (settings : Settings) (source : String) :
    Except TextFault String := do
  let methods ← parsed (FuncDecl.parseAll source)
  let redirected ← (methods.mapM (schema.redirect settings methods)).mapError .rejected
  return "\n".intercalate (redirected.map (·.render))

def redirectBodyText (schema : Schema) (settings : Settings) (source : String) :
    Except TextFault String := do
  let method ← parsed (FuncDecl.parse source)
  let redirected ← (schema.redirect settings [method] method).mapError .rejected
  return redirected.body.renderBody

def redirectError (schema : Schema) (settings : Settings) (source : String) :
    Except TextFault RedirectError := do
  let method ← parsed (FuncDecl.parse source)
  match schema.redirect settings [method] method with
  | .error error => return error
  | .ok redirected => throw (.accepted redirected)

def generateText (schema : Schema) (settings : Settings) (source : String) :
    Except TextFault String := do
  let methods ← parsed (FuncDecl.parseAll source)
  let generated ← (Run.ofSchema schema settings methods).result.mapError .failed
  return Decl.renderAll generated.declarations

end Schema

end FieldAccess
